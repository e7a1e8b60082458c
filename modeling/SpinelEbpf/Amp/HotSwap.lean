import SpinelEbpf.Amp.Runtime

/-!
# Amp — hot swap under interleaving

The application core pushes commands while the real-time core polls, so between any two accesses
of one to the command ring the other may make any number of its own.  `Step` is that machine.
The real-time core's side is `amp_m7_poll_cmd` cut at every store: the progress word, each byte
of the two `memset`s and of the `memcpy`, the flip of the active slot, the consumer index.  It
reads the blob byte by byte out of the shared record while it copies.  On the other side a push
may leave any garbage in its record until it is complete.

The system carries its history: the commands `pushed` and those `executed`, a command counting as
executed when it takes effect.  `current` is what the component is for: the blob that should be
running after a list of commands.  `Inv` says that the ring holds the commands that are not
executed (`Spsc.Window`) and that the active slot holds the current blob; every step keeps it
(`Step.inv`).
-/

namespace SpinelEbpf.Amp.HotSwap
open Function Spsc

/-- Where the application core stands in `amp_cmd_ring_push`. -/
inductive Pusher where
  | idle
  /-- `prod` has been read. -/
  | loaded (rec : AmpCmdRec) (prod : BitVec 32)
  /-- There was room; the record is being copied. -/
  | writing (rec : AmpCmdRec) (prod : BitVec 32)
  /-- The record is complete. -/
  | stored (rec : AmpCmdRec) (prod : BitVec 32)

/-- Where the real-time core stands in `amp_m7_poll_cmd`. -/
inductive Core where
  | idle
  /-- At a progress write, before `next`. -/
  | noting (step : Nat) (next : Core)
  /-- At the test of the magic. -/
  | entering
  /-- About to read the consumer index. -/
  | loading
  /-- At the loop's test. -/
  | looping (cons : BitVec 32)
  /-- At the command's type. -/
  | dispatching (cons : BitVec 32)
  /-- In the `memset` of an install, `i` bytes done. -/
  | zeroing (cons : BitVec 32) (target : Fin 2) (len zsize i : Nat)
  /-- In the `memcpy` of an install, `i` bytes done. -/
  | copying (cons : BitVec 32) (target : Fin 2) (len i : Nat)
  /-- At the flip of an install. -/
  | flipping (cons : BitVec 32) (target : Fin 2)
  /-- At the start of a teardown. -/
  | deactivating (cons : BitVec 32)
  /-- In the `memset` of a teardown, `i` bytes done. -/
  | wiping (cons : BitVec 32) (i : Nat)
  /-- The command is done. -/
  | advancing (cons : BitVec 32)
  /-- The loop is over. -/
  | finishing (cons : BitVec 32)

/-- The runtime, the two cores, and the history; `taken` counts the commands whose records have
been given back to the ring. -/
structure System where
  m : Runtime
  pusher : Pusher
  core : Core
  pushed : List AmpCmdRec
  executed : List AmpCmdRec
  taken : Nat

/-- What a step writes. -/
inductive Place where
  | byte (addr : Nat)
  | activeSlot
  | progressWord
  | consWord
  | prodWord
  | record (slot : Nat)
  deriving DecidableEq, Repr

/-- The addresses of a place.  `g_active_slot` is a variable of the runtime, outside the ABI. -/
def Place.Covers (b : Board) : Place → Nat → Prop
  | .byte addr, a    => a = addr
  | .activeSlot, _   => False
  | .progressWord, a => b.progressBase ≤ a ∧ a < b.progressBase + 4
  | .prodWord, a     => b.cmdRingBase + 16 ≤ a ∧ a < b.cmdRingBase + 20
  | .consWord, a     => b.cmdRingBase + 20 ≤ a ∧ a < b.cmdRingBase + 24
  | .record slot, a  => b.cmdRingBase + 32 + 528 * slot ≤ a ∧ a < b.cmdRingBase + 560 + 528 * slot

/-- The record the core works on. -/
def System.cmdAt (σ : System) (cons : BitVec 32) : AmpCmdRec :=
  σ.m.cmd.recs (σ.m.cmd.slotOf cons)

/-- Storing one byte. -/
def poke (m : Runtime) (addr : Nat) (v : UInt8) : Runtime :=
  { m with mem := update m.mem addr v }

/-- The steps of the application core, in `amp_cmd_ring_push`. -/
inductive PushStep : System → Option Place → System → Prop where
  | refuse {σ : System} (h : σ.pusher = .idle) (hm : σ.m.cmd.magic ≠ ampCmdRingMagic) :
      PushStep σ none σ
  | load {σ : System} (rec : AmpCmdRec) (h : σ.pusher = .idle)
      (hm : σ.m.cmd.magic = ampCmdRingMagic) :
      PushStep σ none { σ with pusher := .loaded rec σ.m.cmd.prod }
  | full {σ : System} {rec : AmpCmdRec} {prod : BitVec 32} (h : σ.pusher = .loaded rec prod)
      (hfull : σ.m.cmd.capacity ≤ prod - σ.m.cmd.cons) :
      PushStep σ none { σ with pusher := .idle }
  | room {σ : System} {rec : AmpCmdRec} {prod : BitVec 32} (h : σ.pusher = .loaded rec prod)
      (hroom : ¬ σ.m.cmd.capacity ≤ prod - σ.m.cmd.cons) :
      PushStep σ none { σ with pusher := .writing rec prod }
  -- any part of the record may have been copied
  | scribble {σ : System} {rec : AmpCmdRec} {prod : BitVec 32} (part : AmpCmdRec)
      (h : σ.pusher = .writing rec prod) :
      PushStep σ (some (.record (σ.m.cmd.slotOf prod))) { σ with
        m := { σ.m with
          cmd := { σ.m.cmd with
            recs := update σ.m.cmd.recs (σ.m.cmd.slotOf prod) part } } }
  | store {σ : System} {rec : AmpCmdRec} {prod : BitVec 32} (h : σ.pusher = .writing rec prod) :
      PushStep σ (some (.record (σ.m.cmd.slotOf prod))) { σ with
        m := { σ.m with
          cmd := { σ.m.cmd with
            recs := update σ.m.cmd.recs (σ.m.cmd.slotOf prod) rec } }
        pusher := .stored rec prod }
  | publish {σ : System} {rec : AmpCmdRec} {prod : BitVec 32} (h : σ.pusher = .stored rec prod) :
      PushStep σ (some .prodWord) { σ with
        m := { σ.m with cmd := { σ.m.cmd with prod := prod + 1#32 } }
        pusher := .idle
        pushed := σ.pushed ++ [rec] }

/-- The steps of the real-time core, in `amp_m7_poll_cmd`. -/
inductive PollStep (b : Board) : System → Option Place → System → Prop where
  | poll {σ : System} (h : σ.core = .idle) :
      PollStep b σ none { σ with core := .noting 20 .entering }
  | note {σ : System} {step : Nat} {next : Core} (h : σ.core = .noting step next) :
      PollStep b σ (some .progressWord)
        { σ with m := ampM7Progress step σ.m, core := next }
  | leave {σ : System} (h : σ.core = .entering) (hm : σ.m.cmd.magic ≠ ampCmdRingMagic) :
      PollStep b σ none { σ with core := .idle }
  | enter {σ : System} (h : σ.core = .entering) (hm : σ.m.cmd.magic = ampCmdRingMagic) :
      PollStep b σ none { σ with core := .noting 25 .loading }
  | load {σ : System} (h : σ.core = .loading) :
      PollStep b σ none { σ with core := .looping σ.m.cmd.cons }
  | found {σ : System} {cons : BitVec 32} (h : σ.core = .looping cons)
      (hne : cons ≠ σ.m.cmd.prod) :
      PollStep b σ none { σ with core := .noting 30 (.dispatching cons) }
  | install {σ : System} {cons : BitVec 32} (h : σ.core = .dispatching cons)
      (ht : (σ.cmdAt cons).type = ampCmdInstall) (ha : accepts b (σ.cmdAt cons) = true) :
      PollStep b σ none { σ with
        core := .noting 40 (.noting 45 (.noting 50 (.zeroing cons (inactive σ.m.active)
          (σ.cmdAt cons).length.toNat (zeroSize b (σ.cmdAt cons).ivarsSize) 0))) }
  -- an INSTALL the gate refuses is logged, and an unknown command is not even that
  | skip {σ : System} {cons : BitVec 32} (h : σ.core = .dispatching cons)
      (ht : (σ.cmdAt cons).type = ampCmdInstall → accepts b (σ.cmdAt cons) = false)
      (hd : (σ.cmdAt cons).type ≠ ampCmdTeardown) :
      PollStep b σ none { σ with
        core := .advancing cons
        executed := σ.executed ++ [σ.cmdAt cons] }
  | teardown {σ : System} {cons : BitVec 32} (h : σ.core = .dispatching cons)
      (ht : (σ.cmdAt cons).type = ampCmdTeardown) :
      PollStep b σ none { σ with core := .deactivating cons }
  | zero {σ : System} {cons : BitVec 32} {target : Fin 2} {len zsize i : Nat}
      (h : σ.core = .zeroing cons target len zsize i) (hi : i < zsize) :
      PollStep b σ (some (.byte (b.ivarsBase + i)))
        { σ with m := poke σ.m (b.ivarsBase + i) 0, core := .zeroing cons target len zsize (i + 1) }
  | zeroed {σ : System} {cons : BitVec 32} {target : Fin 2} {len zsize i : Nat}
      (h : σ.core = .zeroing cons target len zsize i) (hi : zsize ≤ i) :
      PollStep b σ none { σ with core := .noting 55 (.copying cons target len 0) }
  | copy {σ : System} {cons : BitVec 32} {target : Fin 2} {len i : Nat}
      (h : σ.core = .copying cons target len i) (hi : i < len) :
      PollStep b σ (some (.byte (b.blobSlot target + i)))
        { σ with
          m := poke σ.m (b.blobSlot target + i) ((σ.cmdAt cons).blob i)
          core := .copying cons target len (i + 1) }
  | copied {σ : System} {cons : BitVec 32} {target : Fin 2} {len i : Nat}
      (h : σ.core = .copying cons target len i) (hi : len ≤ i) :
      PollStep b σ none
        { σ with core := .noting 60 (.noting 70 (.flipping cons target)) }
  | flip {σ : System} {cons : BitVec 32} {target : Fin 2} (h : σ.core = .flipping cons target) :
      PollStep b σ (some .activeSlot) { σ with
        m := { σ.m with active := some target }
        core := .noting 80 (.advancing cons)
        executed := σ.executed ++ [σ.cmdAt cons] }
  | deactivate {σ : System} {cons : BitVec 32} (h : σ.core = .deactivating cons) :
      PollStep b σ (some .activeSlot) { σ with
        m := { σ.m with active := none }
        core := .wiping cons 0
        executed := σ.executed ++ [σ.cmdAt cons] }
  | wipe {σ : System} {cons : BitVec 32} {i : Nat} (h : σ.core = .wiping cons i)
      (hi : i < b.ivarsSize) :
      PollStep b σ (some (.byte (b.ivarsBase + i)))
        { σ with m := poke σ.m (b.ivarsBase + i) 0, core := .wiping cons (i + 1) }
  | wiped {σ : System} {cons : BitVec 32} {i : Nat} (h : σ.core = .wiping cons i)
      (hi : b.ivarsSize ≤ i) :
      PollStep b σ none { σ with core := .advancing cons }
  | advance {σ : System} {cons : BitVec 32} (h : σ.core = .advancing cons) :
      PollStep b σ none { σ with core := .looping (cons + 1#32) }
  | drained {σ : System} {cons : BitVec 32} (h : σ.core = .looping cons)
      (heq : cons = σ.m.cmd.prod) :
      PollStep b σ none { σ with core := .finishing cons }
  | commit {σ : System} {cons : BitVec 32} (h : σ.core = .finishing cons) :
      PollStep b σ (some .consWord) { σ with
        m := { σ.m with cmd := { σ.m.cmd with cons := cons } }
        core := .idle
        taken := σ.executed.length }

/-- A step of either core. -/
def Step (b : Board) (σ : System) (w : Option Place) (σ' : System) : Prop :=
  PushStep σ w σ' ∨ PollStep b σ w σ'

/-! ### What should be running -/

/-- The blob of a command. -/
def blobBytes (rec : AmpCmdRec) : List UInt8 := (List.range rec.length.toNat).map rec.blob

/-- What a command makes of the blob that is running. -/
def effect (b : Board) (cur : Option (List UInt8)) (rec : AmpCmdRec) : Option (List UInt8) :=
  if rec.type = ampCmdInstall then if accepts b rec then some (blobBytes rec) else cur
  else if rec.type = ampCmdTeardown then none
  else cur

/-- The blob that should be running after `cmds`, when `boot` ran before them: that of the last
accepted install, unless a teardown follows it. -/
def current (b : Board) (boot : Option (List UInt8)) (cmds : List AmpCmdRec) :
    Option (List UInt8) :=
  cmds.foldl (effect b) boot

@[simp] theorem current_snoc (b : Board) (boot : Option (List UInt8)) (cmds : List AmpCmdRec)
    (rec : AmpCmdRec) : current b boot (cmds ++ [rec]) = effect b (current b boot cmds) rec := by
  simp [current]

variable {b : Board} {cur boot : Option (List UInt8)} {σ σ' : System} {target : Fin 2} {p : Pusher}
  {i : Nat} {rec : AmpCmdRec} {cons : BitVec 32} {c : Core}

theorem effect_install (ht : rec.type = ampCmdInstall) (ha : accepts b rec = true) :
    effect b cur rec = some (blobBytes rec) := by
  rw [effect, if_pos ht, if_pos ha]

theorem effect_teardown (ht : rec.type = ampCmdTeardown) :
    effect b cur rec = none := by
  rw [effect, if_neg (by rw [ht]; decide), if_pos ht]

theorem effect_skip (ht : rec.type = ampCmdInstall → accepts b rec = false)
    (hd : rec.type ≠ ampCmdTeardown) :
    effect b cur rec = cur := by
  by_cases hi : rec.type = ampCmdInstall
  · rw [effect, if_pos hi, ht hi]; rfl
  · rw [effect, if_neg hi, if_neg hd]

/-- The active slot, if any, begins with the bytes of the blob that should be running. -/
def Shows (b : Board) (active : Option (Fin 2)) (mem : Nat → UInt8)
    (cur : Option (List UInt8)) : Prop :=
  match active, cur with
  | none, none         => True
  | some s, some bytes =>
      bytes.length ≤ ampBlobMax ∧ ∀ i x, bytes[i]? = some x → mem (b.blobSlot s + i) = x
  | _, _ => False

/-! ### The invariant -/

/-- What the application core has done so far is right. -/
def Pusher.Ok (σ : System) : Pusher → Prop
  | .idle => True
  | .loaded _ prod => prod = σ.m.cmd.prod
  | .writing _ prod => prod = σ.m.cmd.prod ∧ σ.pushed.length < σ.taken + 2
  | .stored rec prod =>
      prod = σ.m.cmd.prod ∧ σ.pushed.length < σ.taken + 2 ∧
        σ.m.cmd.recs (σ.m.cmd.slotOf prod) = rec

/-- The core is at command `rec`, the next one to be executed. -/
def AtCmd (σ : System) (cons : BitVec 32) (rec : AmpCmdRec) : Prop :=
  cons = BitVec.ofNat 32 σ.executed.length ∧ σ.pushed[σ.executed.length]? = some rec

/-- The core is installing `rec` into `target`. -/
def Installing (b : Board) (σ : System) (cons : BitVec 32) (target : Fin 2) (rec : AmpCmdRec) :
    Prop :=
  AtCmd σ cons rec ∧ rec.type = ampCmdInstall ∧ accepts b rec = true ∧
    target = inactive σ.m.active

/-- The first `n` bytes of `rec` are in `target`. -/
def Copied (b : Board) (σ : System) (target : Fin 2) (rec : AmpCmdRec) (n : Nat) : Prop :=
  ∀ j < n, σ.m.mem (b.blobSlot target + j) = rec.blob j

/-- What the real-time core has done so far is right. -/
def Core.Ok (b : Board) (σ : System) : Core → Prop
  | .idle | .entering | .loading => σ.taken = σ.executed.length
  | .noting _ next => next.Ok b σ
  | .looping cons | .finishing cons => cons = BitVec.ofNat 32 σ.executed.length
  | .dispatching cons => ∃ rec, AtCmd σ cons rec
  | .zeroing cons target len zsize _ =>
      zsize ≤ b.ivarsSize ∧ ∃ rec, Installing b σ cons target rec ∧ len = rec.length.toNat
  | .copying cons target len i =>
      ∃ rec, Installing b σ cons target rec ∧ len = rec.length.toNat ∧ Copied b σ target rec i
  | .flipping cons target =>
      ∃ rec, Installing b σ cons target rec ∧ Copied b σ target rec rec.length.toNat
  | .deactivating cons => ∃ rec, AtCmd σ cons rec ∧ rec.type = ampCmdTeardown
  | .wiping cons _ | .advancing cons => cons + 1#32 = BitVec.ofNat 32 σ.executed.length

/-- The ring holds the commands not given back, and the active slot the current blob. -/
structure Inv (b : Board) (boot : Option (List UInt8)) (σ : System) : Prop where
  magic : σ.m.cmd.magic = ampCmdRingMagic
  capacity : σ.m.cmd.capacity = 2#32
  prod : σ.m.cmd.prod = BitVec.ofNat 32 σ.pushed.length
  cons : σ.m.cmd.cons = BitVec.ofNat 32 σ.taken
  window : Window 2 σ.m.cmd.recs σ.pushed σ.taken
  executed : σ.executed <+: σ.pushed
  taken_le : σ.taken ≤ σ.executed.length
  shows : Shows b σ.m.active σ.m.mem (current b boot σ.executed)
  pusher : σ.pusher.Ok σ
  core : σ.core.Ok b σ

theorem AtCmd.mono (h : AtCmd σ cons rec)
    (he : σ'.executed = σ.executed) (hp : σ.pushed <+: σ'.pushed) :
    AtCmd σ' cons rec := by
  obtain ⟨hc, hr⟩ := h
  obtain ⟨rest, hrest⟩ := hp
  unfold AtCmd
  rw [he, ← hrest, List.getElem?_append_left (List.getElem?_eq_some_iff.mp hr).1]
  exact ⟨hc, hr⟩

theorem Installing.mono (h : Installing b σ cons target rec)
    (hact : σ'.m.active = σ.m.active) (he : σ'.executed = σ.executed) (hp : σ.pushed <+: σ'.pushed) :
    Installing b σ' cons target rec := by
  obtain ⟨hat, ht, ha, hne⟩ := h
  exact ⟨hat.mono he hp, ht, ha, by rwa [hact]⟩

/-- The core's part looks at the memory and the history; a longer list of pushes is fine. -/
theorem Core.Ok.mono (h : c.Ok b σ) (hact : σ'.m.active = σ.m.active)
    (hmem : σ'.m.mem = σ.m.mem) (he : σ'.executed = σ.executed) (ht : σ'.taken = σ.taken)
    (hp : σ.pushed <+: σ'.pushed) : c.Ok b σ' := by
  induction c with
  | noting step next ih => exact ih h
  | idle | entering | loading =>
      simp only [Core.Ok, he, ht] at h ⊢; exact h
  | looping | finishing | wiping | advancing =>
      simp only [Core.Ok, he] at h ⊢; exact h
  | dispatching cons =>
      obtain ⟨rec, h⟩ := h
      exact ⟨rec, h.mono he hp⟩
  | deactivating cons =>
      obtain ⟨rec, h, ht⟩ := h
      exact ⟨rec, h.mono he hp, ht⟩
  | zeroing cons target len zsize i =>
      obtain ⟨hz, rec, h, hl⟩ := h
      exact ⟨hz, rec, h.mono hact he hp, hl⟩
  | copying cons target len i =>
      obtain ⟨rec, h, hl, hc⟩ := h
      exact ⟨rec, h.mono hact he hp, hl, by simpa only [Copied, hmem] using hc⟩
  | flipping cons target =>
      obtain ⟨rec, h, hc⟩ := h
      exact ⟨rec, h.mono hact he hp, by simpa only [Copied, hmem] using hc⟩

/-! ### Pushes -/

theorem Inv.slotOf_ofNat (h : Inv b boot σ) (i : Nat) :
    σ.m.cmd.slotOf (BitVec.ofNat 32 i) = i % 2 := by
  rw [AmpCmdRing.slotOf, h.capacity]
  exact toNat_ofNat_mod (by decide) i

theorem Inv.slotOf_prod (h : Inv b boot σ) : σ.m.cmd.slotOf σ.m.cmd.prod = σ.pushed.length % 2 := by
  rw [h.prod, h.slotOf_ofNat]

/-- The ring is full exactly when two commands have not been given back. -/
theorem Inv.full_iff (h : Inv b boot σ) :
    σ.m.cmd.capacity ≤ σ.m.cmd.prod - σ.m.cmd.cons ↔ σ.pushed.length = σ.taken + 2 := by
  have hle := h.window.taken_le
  have hfits := h.window.fits
  rw [BitVec.le_def, h.capacity, h.prod, h.cons, toNat_sub_ofNat hle (by omega)]
  simp only [BitVec.toNat_ofNat]
  omega

theorem Inv.setPusher (h : Inv b boot σ) (hp : p.Ok σ) :
    Inv b boot { σ with pusher := p } :=
  { h with
    pusher := by cases p <;> exact hp
    core := h.core.mono rfl rfl rfl rfl (List.prefix_refl _) }

/-- A write to the record that is free next. -/
theorem Inv.setRecord (h : Inv b boot σ)
    (hroom : σ.pushed.length < σ.taken + 2)
    (hp : p.Ok { σ with
      m := { σ.m with
        cmd := { σ.m.cmd with
          recs := update σ.m.cmd.recs (σ.m.cmd.slotOf σ.m.cmd.prod) rec } } }) :
    Inv b boot { σ with
      m := { σ.m with
        cmd := { σ.m.cmd with
          recs := update σ.m.cmd.recs (σ.m.cmd.slotOf σ.m.cmd.prod) rec } }
      pusher := p } :=
  { h with
    window := by rw [h.slotOf_prod]; exact h.window.scratch hroom _
    pusher := by cases p <;> exact hp
    core := h.core.mono rfl rfl rfl rfl (List.prefix_refl _) }

theorem Inv.publish {prod : BitVec 32} (h : Inv b boot σ)
    (hp : σ.pusher = .stored rec prod) :
    Inv b boot { σ with
      m := { σ.m with cmd := { σ.m.cmd with prod := prod + 1#32 } }
      pusher := .idle
      pushed := σ.pushed ++ [rec] } := by
  have hok := h.pusher
  rw [hp] at hok
  obtain ⟨rfl, hroom, hrec⟩ := hok
  refine { h with
    prod := ?_
    window := h.window.push hroom (by rw [← h.slotOf_prod]; exact hrec)
    executed := h.executed.trans (List.prefix_append _ _)
    pusher := trivial
    core := h.core.mono rfl rfl rfl rfl (List.prefix_append _ _) }
  simp only [h.prod, List.length_append, List.length_singleton, BitVec.ofNat_add]

/-- **A step of the application core keeps the invariant.** -/
theorem PushStep.inv {w : Option Place} (hs : PushStep σ w σ') (h : Inv b boot σ) :
    Inv b boot σ' := by
  have hok := h.pusher
  cases hs with
  | refuse => exact h
  | load => exact h.setPusher rfl
  | full => exact h.setPusher trivial
  | room hp hroom =>
      rw [hp] at hok
      obtain rfl := hok
      rw [h.full_iff] at hroom
      have hfits := h.window.fits
      exact h.setPusher ⟨rfl, by omega⟩
  | scribble part hp =>
      rw [hp] at hok
      obtain ⟨rfl, hroom⟩ := hok
      refine h.setRecord hroom ?_
      rw [hp]
      exact ⟨rfl, hroom⟩
  | store hp =>
      rw [hp] at hok
      obtain ⟨rfl, hroom⟩ := hok
      refine h.setRecord hroom ⟨rfl, hroom, ?_⟩
      simp [AmpCmdRing.slotOf]
  | publish hp => exact h.publish hp

/-! ### Polls -/

/-- The record at the core's index is the next command. -/
theorem Inv.cmdAt_eq (h : Inv b boot σ)
    (hat : AtCmd σ cons rec) : σ.cmdAt cons = rec := by
  obtain ⟨rfl, hrec⟩ := hat
  rw [System.cmdAt, h.slotOf_ofNat]
  exact h.window.slot _ _ h.taken_le hrec

/-- Short of the producer's index there is a command. -/
theorem Inv.atCmd_of_ne (h : Inv b boot σ)
    (hc : cons = BitVec.ofNat 32 σ.executed.length) (hne : cons ≠ σ.m.cmd.prod) :
    ∃ rec, AtCmd σ cons rec := by
  have hlt : σ.executed.length < σ.pushed.length := by
    refine Nat.lt_of_le_of_ne h.executed.length_le fun heq => hne ?_
    rw [hc, h.prod, heq]
  exact ⟨_, hc, List.getElem?_eq_getElem hlt⟩

/-- The pusher's part does not look at the memory, nor at how far the core is. -/
theorem Pusher.Ok.mono (h : p.Ok σ) (hprod : σ'.m.cmd.prod = σ.m.cmd.prod)
    (hcap : σ'.m.cmd.capacity = σ.m.cmd.capacity) (hrecs : σ'.m.cmd.recs = σ.m.cmd.recs)
    (hp : σ'.pushed = σ.pushed) (ht : σ.taken ≤ σ'.taken) : p.Ok σ' := by
  cases p with
  | idle => trivial
  | loaded => simpa only [Pusher.Ok, hprod] using h
  | writing =>
      obtain ⟨h, hroom⟩ := h
      exact ⟨by rw [hprod]; exact h, by rw [hp]; omega⟩
  | stored =>
      obtain ⟨h, hroom, hrec⟩ := h
      refine ⟨by rw [hprod]; exact h, by rw [hp]; omega, ?_⟩
      simpa only [AmpCmdRing.slotOf, hcap, hrecs] using hrec

theorem Inv.setCore (h : Inv b boot σ) (hc : c.Ok b σ) :
    Inv b boot { σ with core := c } :=
  { h with
    pusher := h.pusher.mono rfl rfl rfl rfl (Nat.le_refl _)
    core := hc.mono rfl rfl rfl rfl (List.prefix_refl _) }

/-- A byte outside the active slot may change. -/
theorem Shows.update {active : Option (Fin 2)} {mem : Nat → UInt8} {a : Nat} {v : UInt8}
    (h : Shows b active mem cur) (ha : ∀ s, active = some s → ¬ InSlot b s a) :
    Shows b active (update mem a v) cur := by
  cases active with
  | none => cases cur <;> exact h
  | some s =>
      cases cur with
      | none => exact h
      | some bytes =>
          refine ⟨h.1, fun i x hx => ?_⟩
          have hi : i < bytes.length := (List.getElem?_eq_some_iff.mp hx).1
          have hlen := h.1
          have hne : b.blobSlot s + i ≠ a := by
            rintro rfl
            exact ha s rfl ⟨by omega, by omega⟩
          rw [update_of_ne hne]
          exact h.2 i x hx

theorem Inv.poke {a : Nat} {v : UInt8} (h : Inv b boot σ)
    (ha : ∀ s, σ.m.active = some s → ¬ InSlot b s a)
    (hc : c.Ok b { σ with m := poke σ.m a v }) :
    Inv b boot { σ with m := poke σ.m a v, core := c } :=
  { h with
    shows := h.shows.update ha
    pusher := h.pusher.mono rfl rfl rfl rfl (Nat.le_refl _)
    core := hc.mono rfl rfl rfl rfl (List.prefix_refl _) }

/-- A command takes effect. -/
theorem Inv.execute {active : Option (Fin 2)}
    (h : Inv b boot σ) (hat : AtCmd σ cons rec)
    (hs : Shows b active σ.m.mem (effect b (current b boot σ.executed) rec))
    (hc : c.Ok b { σ with
      m := { σ.m with active := active }
      executed := σ.executed ++ [rec] }) :
    Inv b boot { σ with
      m := { σ.m with active := active }
      core := c
      executed := σ.executed ++ [rec] } := by
  refine { h with
    executed := prefix_snoc h.executed hat.2
    taken_le := ?_
    shows := by rw [current_snoc]; exact hs
    pusher := h.pusher.mono rfl rfl rfl rfl (Nat.le_refl _)
    core := hc.mono rfl rfl rfl rfl (List.prefix_refl _) }
  have := h.taken_le
  simp only [List.length_append, List.length_singleton]
  omega

theorem AtCmd.done (hat : AtCmd σ cons rec) :
    cons + 1#32 = BitVec.ofNat 32 (σ.executed ++ [rec]).length := by
  rw [hat.1, List.length_append, List.length_singleton, BitVec.ofNat_add]

theorem length_of_accepts (h : accepts b rec = true) :
    0 < rec.length.toNat ∧ rec.length.toNat ≤ ampBlobMax := by
  simp only [accepts, decide_eq_true_eq] at h
  exact ⟨by simpa [BitVec.lt_def] using h.2.1, h.2.2⟩

theorem inactive_ne (active : Option (Fin 2)) : active ≠ some (inactive active) := by
  unfold inactive
  split
  · rintro h; simp_all
  · assumption

theorem zeroSize_le (ivarsSize : BitVec 32) : zeroSize b ivarsSize ≤ b.ivarsSize := by
  unfold zeroSize
  generalize (if ivarsSize ≠ 0#32 then ivarsSize.toNat else b.ivarsSize) = zsize
  dsimp only
  split <;> omega

/-- A byte of the carveout is in no slot. -/
theorem not_inSlot_ivars {s : Fin 2} (hi : i < b.ivarsSize) :
    ¬ InSlot b s (b.ivarsBase + i) :=
  fun h => h.not_inCarveout ⟨by omega, by omega⟩

/-- A byte of the slot that is being filled is not in the active one. -/
theorem Installing.not_inSlot {s : Fin 2}
    (h : Installing b σ cons target rec) (hi : i < rec.length.toNat) (hs : σ.m.active = some s) :
    ¬ InSlot b s (b.blobSlot target + i) := by
  obtain ⟨-, -, ha, rfl⟩ := h
  have hlen := (length_of_accepts ha).2
  intro hin
  have hsame : inactive σ.m.active = s := InSlot.unique ⟨by omega, by omega⟩ hin
  exact inactive_ne σ.m.active (by rw [hsame, hs])

theorem Copied.snoc (h : Copied b σ target rec i) :
    Copied b { σ with m := poke σ.m (b.blobSlot target + i) (rec.blob i) } target rec (i + 1) := by
  intro j hj
  rcases Nat.lt_succ_iff_lt_or_eq.mp hj with hj | rfl
  · exact (update_of_ne (by omega) _ _).trans (h j hj)
  · exact update_self ..

/-- **A step of the real-time core keeps the invariant.** -/
theorem PollStep.inv {w : Option Place} (hs : PollStep b σ w σ') (h : Inv b boot σ) :
    Inv b boot σ' := by
  have hok := h.core
  cases hs with
  | poll hc | leave hc | enter hc =>
      rw [hc] at hok
      exact h.setCore hok
  | note hc =>
      rw [hc] at hok
      exact { h with
        pusher := h.pusher.mono rfl rfl rfl rfl (Nat.le_refl _)
        core := hok.mono rfl rfl rfl rfl (List.prefix_refl _) }
  | load hc =>
      rw [hc] at hok
      have htaken : σ.taken = σ.executed.length := hok
      exact h.setCore (by rw [h.cons, htaken]; rfl)
  | found hc hne =>
      rw [hc] at hok
      exact h.setCore (h.atCmd_of_ne hok hne)
  | install hc ht ha =>
      rw [hc] at hok
      obtain ⟨rec, hat⟩ := hok
      obtain rfl := h.cmdAt_eq hat
      exact h.setCore ⟨zeroSize_le _, _, ⟨hat, ht, ha, rfl⟩, rfl⟩
  | skip hc ht hd =>
      rw [hc] at hok
      obtain ⟨rec, hat⟩ := hok
      obtain rfl := h.cmdAt_eq hat
      exact h.execute hat (by rw [effect_skip ht hd]; exact h.shows) hat.done
  | teardown hc ht =>
      rw [hc] at hok
      obtain ⟨rec, hat⟩ := hok
      obtain rfl := h.cmdAt_eq hat
      exact h.setCore ⟨_, hat, ht⟩
  | zero hc hi =>
      rw [hc] at hok
      obtain ⟨hz, hok⟩ := hok
      exact h.poke (fun s _ => not_inSlot_ivars (by omega)) ⟨hz, hok⟩
  | zeroed hc hi =>
      rw [hc] at hok
      obtain ⟨-, rec, hin, hlen⟩ := hok
      exact h.setCore ⟨rec, hin, hlen, fun j hj => absurd hj (Nat.not_lt_zero j)⟩
  | copy hc hi =>
      rw [hc] at hok
      obtain ⟨rec, hin, rfl, hcopied⟩ := hok
      obtain rfl := h.cmdAt_eq hin.1
      exact h.poke (fun s hs => hin.not_inSlot hi hs) ⟨_, hin, rfl, hcopied.snoc⟩
  | copied hc hi =>
      rw [hc] at hok
      obtain ⟨rec, hin, rfl, hcopied⟩ := hok
      exact h.setCore ⟨rec, hin, fun j hj => hcopied j (by omega)⟩
  | flip hc =>
      rw [hc] at hok
      obtain ⟨rec, ⟨hat, ht, ha, -⟩, hcopied⟩ := hok
      obtain rfl := h.cmdAt_eq hat
      refine h.execute hat ?_ hat.done
      rw [effect_install ht ha]
      refine ⟨by simpa [blobBytes] using (length_of_accepts ha).2, fun i x hx => ?_⟩
      obtain ⟨hi, rfl⟩ := List.getElem?_eq_some_iff.mp hx
      simp only [blobBytes, List.length_map, List.length_range] at hi
      simpa [blobBytes] using hcopied i hi
  | deactivate hc =>
      rw [hc] at hok
      obtain ⟨rec, hat, ht⟩ := hok
      obtain rfl := h.cmdAt_eq hat
      exact h.execute hat (by rw [effect_teardown ht]; trivial) hat.done
  | wipe hc hi =>
      rw [hc] at hok
      exact h.poke (fun s _ => not_inSlot_ivars hi) hok
  | wiped hc =>
      rw [hc] at hok
      exact h.setCore hok
  | advance hc =>
      rw [hc] at hok
      exact h.setCore hok
  | drained hc =>
      rw [hc] at hok
      exact h.setCore hok
  | commit hc =>
      rw [hc] at hok
      have hcons := hok
      exact { h with
        cons := hcons
        window := h.window.advance h.taken_le h.executed.length_le
        taken_le := Nat.le_refl _
        pusher := h.pusher.mono rfl rfl rfl rfl h.taken_le
        core := rfl }

/-! ### From the start -/

/-- The blob staged for boot, if the gate lets it through. -/
def bootBlob (b : Board) (st : AmpBlobStaging) : Option (List UInt8) :=
  if loadStatus b st = .ok then some ((List.range st.length.toNat).map st.blob) else none

/-- The system after `amp_m7_runtime_init`, both cores idle. -/
def System.start (b : Board) (ampEmit ampKtime : BitVec 32) (st : AmpBlobStaging) (m : Runtime) :
    System where
  m := (ampM7RuntimeInit b ampEmit ampKtime st m).2.1
  pusher := .idle
  core := .idle
  pushed := []
  executed := []
  taken := 0

/-- The states any interleaving of pushes and polls reaches. -/
def Reachable (b : Board) (ampEmit ampKtime : BitVec 32) (st : AmpBlobStaging) (m : Runtime) :
    System → Prop :=
  Relation.ReflTransGen (fun σ σ' => ∃ w, Step b σ w σ') (System.start b ampEmit ampKtime st m)

theorem length_of_loadStatus {st : AmpBlobStaging} (h : loadStatus b st = .ok) :
    st.length.toNat ≤ ampBlobMax := by
  unfold loadStatus at h
  split at h
  · cases h
  split at h
  · cases h
  split at h
  · cases h
  · omega

theorem shows_start (ampEmit ampKtime : BitVec 32) (st : AmpBlobStaging) (m : Runtime) :
    Shows b (System.start b ampEmit ampKtime st m).m.active
      (System.start b ampEmit ampKtime st m).m.mem (bootBlob b st) := by
  by_cases hst : loadStatus b st = .ok
  · simp only [System.start, ampM7RuntimeInit, bootBlob, hst, if_true]
    refine ⟨by simpa using length_of_loadStatus hst, fun i x hx => ?_⟩
    obtain ⟨hi, rfl⟩ := List.getElem?_eq_some_iff.mp hx
    simp only [List.length_map, List.length_range] at hi
    simp [installToSlot, ampM7Progress, blit, hi]
  · simp only [System.start, ampM7RuntimeInit, bootBlob, hst, if_false]
    trivial

theorem inv_start (ampEmit ampKtime : BitVec 32) (st : AmpBlobStaging) (m : Runtime) :
    Inv b (bootBlob b st) (System.start b ampEmit ampKtime st m) := by
  have hcmd : (System.start b ampEmit ampKtime st m).m.cmd = ampCmdRingInit m.cmd := by
    unfold System.start ampM7RuntimeInit
    dsimp only
    split <;> rfl
  exact
    { magic := by rw [hcmd]; rfl
      capacity := by rw [hcmd]; rfl
      prod := by rw [hcmd]; rfl
      cons := by rw [hcmd]; rfl
      window := .empty
      executed := List.prefix_refl _
      taken_le := Nat.le_refl _
      shows := shows_start ampEmit ampKtime st m
      pusher := trivial
      core := rfl }

theorem inv_of_reachable {ampEmit ampKtime : BitVec 32} {st : AmpBlobStaging} {m : Runtime}
    (h : Reachable b ampEmit ampKtime st m σ) : Inv b (bootBlob b st) σ := by
  induction h with
  | refl => exact inv_start ampEmit ampKtime st m
  | tail _ hstep ih =>
      obtain ⟨w, hpush | hpoll⟩ := hstep
      · exact hpush.inv ih
      · exact hpoll.inv ih

/-- The commands in the ring: the records from the consumer index to the producer index. -/
def pending (r : AmpCmdRing) : List AmpCmdRec :=
  (List.range (r.prod - r.cons).toNat).map fun i => r.recs (r.slotOf (r.cons + BitVec.ofNat 32 i))

/-- A runtime over cleared memory. -/
def blank : Runtime where
  cmd := ⟨0, 0, 0, 0, 0, 0, fun _ => ⟨0, 0, 0, 0, fun _ => 0⟩⟩
  ring := ⟨0, 0, 0, 0, 0, 0, fun _ => emitted 0 0⟩
  mem := fun _ => 0
  active := none
  progress := 0

/-- Nothing staged for boot. -/
def unstaged : AmpBlobStaging := ⟨0, 0, 0, 0, fun _ => 0⟩

end SpinelEbpf.Amp.HotSwap

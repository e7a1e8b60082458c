import SpinelEbpf.Amp.HotSwap

/-!
# Amp — the rings behind the real-time core's cache

The real-time core works on a copy of each ring's control block: an invalidation reloads the copy
from shared memory and a flush writes the whole of it back, both indices included.  The application
core reads and writes shared memory.  `amp_m7_poll_cmd` invalidates, works off the commands up to
the producer index it has loaded, and flushes; `amp_emit` flushes and never invalidates.

A flush that writes back an index which the other core has moved in the meantime undoes that move:
a command that was pushed during a poll is lost, and records that were drained are drained again
(`stale_flush`).  In every interleaving in which a flush finds the other core's index as it is in
the copy (`Label.Calm`), the commands pushed are those processed followed by those pending, and no
record is delivered twice (`calm_exact`).
-/

namespace SpinelEbpf.Amp.Cached
open Function Spsc
open HotSwap (Pusher)

/-! ### The command ring -/

/-- Where the real-time core stands in `amp_m7_poll_cmd`. -/
inductive Poller where
  | idle
  /-- At the loop's test. -/
  | looping (cons : BitVec 32)
  /-- The consumer index is in the copy. -/
  | flushing

/-- The command ring, the copy of its control block, the two cores, and the history; `taken` counts
the commands whose records have been given back to the ring.  A copy's records are not used. -/
structure CmdSide where
  shared : AmpCmdRing
  copy : AmpCmdRing
  pusher : Pusher
  poller : Poller
  pushed : List AmpCmdRec
  processed : List AmpCmdRec
  taken : Nat

/-- The steps on the command ring; `true` is the flush. -/
inductive CmdStep : CmdSide → Bool → CmdSide → Prop where
  | pushRefuse {σ : CmdSide} (h : σ.pusher = .idle) (hm : σ.shared.magic ≠ ampCmdRingMagic) :
      CmdStep σ false σ
  | pushLoad {σ : CmdSide} (rec : AmpCmdRec) (h : σ.pusher = .idle)
      (hm : σ.shared.magic = ampCmdRingMagic) :
      CmdStep σ false { σ with pusher := .loaded rec σ.shared.prod }
  | pushFull {σ : CmdSide} {rec : AmpCmdRec} {prod : BitVec 32} (h : σ.pusher = .loaded rec prod)
      (hfull : σ.shared.capacity ≤ prod - σ.shared.cons) :
      CmdStep σ false { σ with pusher := .idle }
  | pushRoom {σ : CmdSide} {rec : AmpCmdRec} {prod : BitVec 32} (h : σ.pusher = .loaded rec prod)
      (hroom : ¬ σ.shared.capacity ≤ prod - σ.shared.cons) :
      CmdStep σ false { σ with pusher := .writing rec prod }
  | pushStore {σ : CmdSide} {rec : AmpCmdRec} {prod : BitVec 32} (h : σ.pusher = .writing rec prod) :
      CmdStep σ false { σ with
        shared := { σ.shared with
          recs := update σ.shared.recs (σ.shared.slotOf prod) rec }
        pusher := .stored rec prod }
  | pushPublish {σ : CmdSide} {rec : AmpCmdRec} {prod : BitVec 32}
      (h : σ.pusher = .stored rec prod) :
      CmdStep σ false { σ with
        shared := { σ.shared with prod := prod + 1#32 }
        pusher := .idle
        pushed := σ.pushed ++ [rec] }
  | pollRefuse {σ : CmdSide} (h : σ.poller = .idle) (hm : σ.shared.magic ≠ ampCmdRingMagic) :
      CmdStep σ false { σ with copy := σ.shared }
  | pollInvalidate {σ : CmdSide} (h : σ.poller = .idle) (hm : σ.shared.magic = ampCmdRingMagic) :
      CmdStep σ false { σ with copy := σ.shared, poller := .looping σ.shared.cons }
  -- the record is invalidated and read; the producer index is the copy's
  | pollProcess {σ : CmdSide} {cons : BitVec 32} (h : σ.poller = .looping cons)
      (hne : cons ≠ σ.copy.prod) :
      CmdStep σ false { σ with
        poller := .looping (cons + 1#32)
        processed := σ.processed ++ [σ.shared.recs (σ.copy.slotOf cons)] }
  | pollDone {σ : CmdSide} {cons : BitVec 32} (h : σ.poller = .looping cons)
      (heq : cons = σ.copy.prod) :
      CmdStep σ false { σ with copy := { σ.copy with cons := cons }, poller := .flushing }
  | pollFlush {σ : CmdSide} (h : σ.poller = .flushing) :
      CmdStep σ true { σ with
        shared := { σ.copy with recs := σ.shared.recs }
        poller := .idle
        taken := σ.processed.length }

/-- The index of the next command to process. -/
def CmdSide.position (σ : CmdSide) : BitVec 32 :=
  match σ.poller with
  | .idle         => σ.shared.cons
  | .looping cons => cons
  | .flushing     => σ.copy.cons

/-- The commands in the ring that are not processed. -/
def CmdSide.pending (σ : CmdSide) : List AmpCmdRec :=
  (List.range (σ.shared.prod - σ.position).toNat).map fun i =>
    σ.shared.recs (σ.shared.slotOf (σ.position + BitVec.ofNat 32 i))

/-! ### The event ring -/

/-- Where the real-time core stands in `amp_emit`. -/
inductive Emitter where
  | idle
  /-- The record at `prod` is in the copy. -/
  | slotDirty (prod : BitVec 32)
  /-- The record is in shared memory, the index is not. -/
  | ringDirty

/-- Where the application core stands in a drain.  A record that it has read is known by the emit
its time is from and the emit its value is from. -/
inductive Drainer where
  | idle
  /-- At the loop's test, with room for `n` more. -/
  | looping (n : Nat) (cons : BitVec 32) (got : List (Nat × Nat))
  /-- The test has passed. -/
  | reading (n : Nat) (cons : BitVec 32) (got : List (Nat × Nat))
  /-- The slot's time has been read. -/
  | half (n : Nat) (cons : BitVec 32) (got : List (Nat × Nat)) (time : Nat)
  /-- The loop is over. -/
  | building (cons : BitVec 32) (got : List (Nat × Nat))

/-- The event ring, the copy of its control block and of the slots that are written, the two cores,
and the history: the emits are numbered, `origin` is the emit whose record a slot of shared memory
holds, and `delivered` are the records handed over by successful drains. -/
structure RingSide where
  shared : AmpRing
  copy : AmpRing
  emitter : Emitter
  drainer : Drainer
  emits : Nat
  origin : Nat → Nat
  delivered : List (Nat × Nat)

/-- The steps on the event ring; `true` is the flush of the control block. -/
inductive RingStep : RingSide → Bool → RingSide → Prop where
  | emitFull {σ : RingSide} (h : σ.emitter = .idle)
      (hfull : σ.copy.capacity ≤ σ.copy.prod - σ.copy.cons) : RingStep σ false σ
  | emitRoom {σ : RingSide} (ts : UInt64) (value : Int64) (h : σ.emitter = .idle)
      (hroom : ¬ σ.copy.capacity ≤ σ.copy.prod - σ.copy.cons) :
      RingStep σ false { σ with
        copy := (ampRingEmit σ.copy ts value).2
        emitter := .slotDirty σ.copy.prod
        emits := σ.emits + 1 }
  | flushSlot {σ : RingSide} {prod : BitVec 32} (h : σ.emitter = .slotDirty prod) :
      RingStep σ false { σ with
        shared := { σ.shared with
          slots := update σ.shared.slots (σ.copy.slotOf prod)
            (σ.copy.slots (σ.copy.slotOf prod)) }
        emitter := .ringDirty
        origin := update σ.origin (σ.copy.slotOf prod) (σ.emits - 1) }
  | flushRing {σ : RingSide} (h : σ.emitter = .ringDirty) :
      RingStep σ true { σ with
        shared := { σ.copy with slots := σ.shared.slots }
        emitter := .idle }
  | drainRefuse {σ : RingSide} (h : σ.drainer = .idle) (hm : σ.shared.magic ≠ ampRingMagic) :
      RingStep σ false σ
  | drainBegin {σ : RingSide} (n : Nat) (h : σ.drainer = .idle) (hm : σ.shared.magic = ampRingMagic) :
      RingStep σ false { σ with drainer := .looping n σ.shared.cons [] }
  | drainMore {σ : RingSide} {n : Nat} {cons : BitVec 32} {got : List (Nat × Nat)}
      (h : σ.drainer = .looping (n + 1) cons got) (hne : cons ≠ σ.shared.prod) :
      RingStep σ false { σ with drainer := .reading n cons got }
  | drainTime {σ : RingSide} {n : Nat} {cons : BitVec 32} {got : List (Nat × Nat)}
      (h : σ.drainer = .reading n cons got) :
      RingStep σ false { σ with drainer := .half n cons got (σ.origin (σ.shared.slotOf cons)) }
  | drainValue {σ : RingSide} {n : Nat} {cons : BitVec 32} {got : List (Nat × Nat)} {time : Nat}
      (h : σ.drainer = .half n cons got time) :
      RingStep σ false { σ with
        drainer := .looping n (cons + 1#32) (got ++ [(time, σ.origin (σ.shared.slotOf cons))]) }
  | drainStop {σ : RingSide} {n : Nat} {cons : BitVec 32} {got : List (Nat × Nat)}
      (h : σ.drainer = .looping n cons got) (hs : n = 0 ∨ cons = σ.shared.prod) :
      RingStep σ false { σ with drainer := .building cons got }
  -- nothing was pending, or the build failed
  | drainNothing {σ : RingSide} {cons : BitVec 32} {got : List (Nat × Nat)}
      (h : σ.drainer = .building cons got) : RingStep σ false { σ with drainer := .idle }
  | drainCommit {σ : RingSide} {cons : BitVec 32} {got : List (Nat × Nat)}
      (h : σ.drainer = .building cons got) :
      RingStep σ false { σ with
        shared := { σ.shared with cons := cons }
        drainer := .idle
        delivered := σ.delivered ++ got }

/-! ### Runs -/

/-- Both rings. -/
structure System where
  cmd : CmdSide
  ring : RingSide

/-- Which control block a step flushes. -/
inductive Label where
  | quiet
  | flushCmd
  | flushRing

/-- Any step of either core. -/
inductive Step : System → Label → System → Prop where
  | cmd {σ : System} {flush : Bool} {cmd : CmdSide} (h : CmdStep σ.cmd flush cmd) :
      Step σ (if flush then .flushCmd else .quiet) { σ with cmd := cmd }
  | ring {σ : System} {flush : Bool} {ring : RingSide} (h : RingStep σ.ring flush ring) :
      Step σ (if flush then .flushRing else .quiet) { σ with ring := ring }

/-- A flush finds the other core's index in shared memory as it is in the copy. -/
def Label.Calm (σ : System) : Label → Prop
  | .quiet     => True
  | .flushCmd  => σ.cmd.shared.prod = σ.cmd.copy.prod
  | .flushRing => σ.ring.shared.cons = σ.ring.copy.cons

/-- Any run. -/
abbrev Steps : System → System → Prop := Relation.ReflTransGen fun σ σ' => ∃ l, Step σ l σ'

/-- A run whose flushes are calm. -/
abbrev CalmSteps : System → System → Prop :=
  Relation.ReflTransGen fun σ σ' => ∃ l, Step σ l σ' ∧ l.Calm σ

/-- After `amp_m7_runtime_init`: both control blocks are initialised and flushed. -/
def System.start (r : AmpCmdRing) (q : AmpRing) : System where
  cmd := ⟨ampCmdRingInit r, ampCmdRingInit r, .idle, .idle, [], [], 0⟩
  ring := ⟨ampRingInit q 256#32, ampRingInit q 256#32, .idle, .idle, 0, fun _ => 0, []⟩

/-! ### Commands under calm flushes -/

/-- What the application core has done so far is right. -/
def PusherOk (shared : AmpCmdRing) (pushed taken : Nat) : Pusher → Prop
  | .idle => True
  | .loaded _ prod => prod = shared.prod
  | .writing _ prod => prod = shared.prod ∧ pushed < taken + 2
  | .stored rec prod => prod = shared.prod ∧ pushed < taken + 2 ∧ shared.recs (pushed % 2) = rec

/-- What the real-time core has done so far is right: the producer index of its copy is that of
some moment since the invalidation. -/
def PollerOk (copy : AmpCmdRing) (processed pushed taken : Nat) : Poller → Prop
  | .idle => processed = taken
  | .looping cons =>
      cons = BitVec.ofNat 32 processed ∧
        ∃ p, copy.prod = BitVec.ofNat 32 p ∧ processed ≤ p ∧ p ≤ pushed
  | .flushing => copy.cons = BitVec.ofNat 32 processed ∧ copy.prod = BitVec.ofNat 32 processed

/-- A flush that leaves the producer index alone. -/
theorem PusherOk.flush {shared copy : AmpCmdRing} {pushed taken taken' : Nat} {q : Pusher}
    (h : PusherOk shared pushed taken q) (hprod : shared.prod = copy.prod) (hle : taken ≤ taken') :
    PusherOk { copy with recs := shared.recs } pushed taken' q := by
  cases q with
  | idle => trivial
  | loaded rec prod => exact h.trans hprod
  | writing rec prod => exact ⟨h.1.trans hprod, h.2.trans_le (Nat.add_le_add_right hle 2)⟩
  | stored rec prod =>
      exact ⟨h.1.trans hprod, h.2.1.trans_le (Nat.add_le_add_right hle 2), h.2.2⟩

theorem PollerOk.grow {copy : AmpCmdRing} {processed pushed taken : Nat} {q : Poller}
    (h : PollerOk copy processed pushed taken q) : PollerOk copy processed (pushed + 1) taken q := by
  cases q with
  | idle => exact h
  | looping cons =>
      obtain ⟨hcons, p, hp, hle, hge⟩ := h
      exact ⟨hcons, p, hp, hle, hge.trans (Nat.le_succ _)⟩
  | flushing => exact h

/-- The ring holds the commands that are not given back, and a part of those is processed. -/
structure CmdInv (σ : CmdSide) : Prop where
  capShared : σ.shared.capacity = 2#32
  capCopy : σ.copy.capacity = 2#32
  prod : σ.shared.prod = BitVec.ofNat 32 σ.pushed.length
  cons : σ.shared.cons = BitVec.ofNat 32 σ.taken
  window : Window 2 σ.shared.recs σ.pushed σ.taken
  processed : σ.processed <+: σ.pushed
  taken_le : σ.taken ≤ σ.processed.length
  pusher : PusherOk σ.shared σ.pushed.length σ.taken σ.pusher
  poller : PollerOk σ.copy σ.processed.length σ.pushed.length σ.taken σ.poller

variable {prod cons : BitVec 32}

section CmdInv

variable {σ σ' : CmdSide}

theorem cmdInv_init (r : AmpCmdRing) :
    CmdInv ⟨ampCmdRingInit r, ampCmdRingInit r, .idle, .idle, [], [], 0⟩ where
  capShared := rfl
  capCopy := rfl
  prod := rfl
  cons := rfl
  window := .empty
  processed := List.prefix_refl _
  taken_le := le_rfl
  pusher := trivial
  poller := rfl

namespace CmdInv

theorem slotOf_ofNat (h : CmdInv σ) (i : Nat) : σ.shared.slotOf (BitVec.ofNat 32 i) = i % 2 := by
  rw [AmpCmdRing.slotOf, h.capShared]
  exact toNat_ofNat_mod (by decide) i

/-- Where there is room, the history is less than two commands ahead. -/
theorem room (h : CmdInv σ) (hroom : ¬ σ.shared.capacity ≤ σ.shared.prod - σ.shared.cons) :
    σ.pushed.length < σ.taken + 2 := by
  have hle := h.window.taken_le
  have hfits := h.window.fits
  have hsub := @toNat_sub_ofNat 32 σ.taken σ.pushed.length hle (by omega)
  rw [h.capShared, h.prod, h.cons, BitVec.le_def, hsub] at hroom
  simp only [BitVec.toNat_ofNat] at hroom
  omega

theorem setPusher {q : Pusher} (h : CmdInv σ) (hq : PusherOk σ.shared σ.pushed.length σ.taken q) :
    CmdInv { σ with pusher := q } :=
  ⟨h.capShared, h.capCopy, h.prod, h.cons, h.window, h.processed, h.taken_le, hq, h.poller⟩

theorem store {rec : AmpCmdRec} (h : CmdInv σ) (hprod : prod = σ.shared.prod)
    (hroom : σ.pushed.length < σ.taken + 2) :
    CmdInv { σ with
      shared := { σ.shared with
        recs := update σ.shared.recs (σ.shared.slotOf prod) rec }
      pusher := .stored rec prod } := by
  have hslot : σ.shared.slotOf prod = σ.pushed.length % 2 := by
    rw [hprod, h.prod, h.slotOf_ofNat]
  rw [hslot]
  exact ⟨h.capShared, h.capCopy, h.prod, h.cons, h.window.scratch hroom rec, h.processed, h.taken_le,
    ⟨hprod, hroom, update_self ..⟩, h.poller⟩

theorem publish {rec : AmpCmdRec} (h : CmdInv σ) (hprod : prod = σ.shared.prod)
    (hroom : σ.pushed.length < σ.taken + 2) (hrec : σ.shared.recs (σ.pushed.length % 2) = rec) :
    CmdInv { σ with
      shared := { σ.shared with prod := prod + 1#32 }
      pusher := .idle
      pushed := σ.pushed ++ [rec] } := by
  have hlen : (σ.pushed ++ [rec]).length = σ.pushed.length + 1 := by simp
  refine ⟨h.capShared, h.capCopy, ?_, h.cons, h.window.push hroom hrec,
    h.processed.trans (List.prefix_append _ _), h.taken_le, trivial, ?_⟩
  · rw [hlen, BitVec.ofNat_add, hprod, h.prod]
  · rw [hlen]
    exact PollerOk.grow h.poller

theorem invalidate (h : CmdInv σ) (hidle : σ.poller = .idle) :
    CmdInv { σ with copy := σ.shared, poller := .looping σ.shared.cons } := by
  have hpoller := h.poller
  rw [hidle] at hpoller
  refine ⟨h.capShared, h.capShared, h.prod, h.cons, h.window, h.processed, h.taken_le, h.pusher,
    ?_, σ.pushed.length, h.prod, h.processed.length_le, le_rfl⟩
  rw [h.cons, hpoller]

/-- The next command, if the copy's producer index is not reached. -/
theorem next (h : CmdInv σ) (hloop : σ.poller = .looping cons) (hne : cons ≠ σ.copy.prod) :
    σ.pushed[σ.processed.length]? = some (σ.shared.recs (σ.copy.slotOf cons)) := by
  have hpoller := h.poller
  rw [hloop] at hpoller
  obtain ⟨hcons, p, hp, hle, hge⟩ := hpoller
  have hlt : σ.processed.length < σ.pushed.length := by
    refine lt_of_lt_of_le (lt_of_le_of_ne hle fun he => hne ?_) hge
    rw [hcons, hp, he]
  have hslot : σ.copy.slotOf cons = σ.processed.length % 2 := by
    rw [AmpCmdRing.slotOf, h.capCopy, hcons]
    exact toNat_ofNat_mod (by decide) _
  have hget := List.getElem?_eq_getElem hlt
  rw [hslot, h.window.slot _ _ h.taken_le hget, hget]

theorem process (h : CmdInv σ) (hloop : σ.poller = .looping cons) (hne : cons ≠ σ.copy.prod) :
    CmdInv { σ with
      poller := .looping (cons + 1#32)
      processed := σ.processed ++ [σ.shared.recs (σ.copy.slotOf cons)] } := by
  have hnext := h.next hloop hne
  have hpre := prefix_snoc h.processed hnext
  have hpoller := h.poller
  rw [hloop] at hpoller
  obtain ⟨hcons, p, hp, hle, hge⟩ := hpoller
  have hlen : (σ.processed ++ [σ.shared.recs (σ.copy.slotOf cons)]).length =
      σ.processed.length + 1 := by simp
  refine ⟨h.capShared, h.capCopy, h.prod, h.cons, h.window, hpre, ?_, h.pusher, ?_⟩
  · rw [hlen]
    exact h.taken_le.trans (Nat.le_succ _)
  · rw [hlen]
    refine ⟨by rw [hcons, BitVec.ofNat_add], p, hp, ?_, hge⟩
    exact lt_of_le_of_ne hle fun he => hne (by rw [hcons, hp, he])

theorem finish (h : CmdInv σ) (hloop : σ.poller = .looping cons) (heq : cons = σ.copy.prod) :
    CmdInv { σ with copy := { σ.copy with cons := cons }, poller := .flushing } := by
  have hpoller := h.poller
  rw [hloop] at hpoller
  exact ⟨h.capShared, h.capCopy, h.prod, h.cons, h.window, h.processed, h.taken_le, h.pusher,
    hpoller.1, heq ▸ hpoller.1⟩

/-- A calm flush gives back what was processed, and there is nothing else. -/
theorem flush (h : CmdInv σ) (hflush : σ.poller = .flushing)
    (hcalm : σ.shared.prod = σ.copy.prod) :
    CmdInv { σ with
      shared := { σ.copy with recs := σ.shared.recs }
      poller := .idle
      taken := σ.processed.length } := by
  have hpoller := h.poller
  rw [hflush] at hpoller
  exact ⟨h.capCopy, h.capCopy, hcalm ▸ h.prod, hpoller.1,
    h.window.advance h.taken_le h.processed.length_le, h.processed, le_rfl,
    h.pusher.flush hcalm h.taken_le, rfl⟩

/-- **Every step keeps the invariant, if its flush is calm.** -/
theorem step {fl : Bool} (hs : CmdStep σ fl σ') (h : CmdInv σ)
    (hcalm : fl = true → σ.shared.prod = σ.copy.prod) : CmdInv σ' := by
  have hpusher := h.pusher
  cases hs with
  | pushRefuse _ _ => exact h
  | pushLoad rec _ _ => exact h.setPusher rfl
  | pushFull _ _ => exact h.setPusher trivial
  | pushRoom hq hroom =>
      rw [hq] at hpusher
      obtain rfl : _ = σ.shared.prod := hpusher
      exact h.setPusher ⟨rfl, h.room hroom⟩
  | pushStore hq =>
      rw [hq] at hpusher
      exact h.store hpusher.1 hpusher.2
  | pushPublish hq =>
      rw [hq] at hpusher
      exact h.publish hpusher.1 hpusher.2.1 hpusher.2.2
  | pollRefuse hidle _ =>
      have hpoller := h.poller
      rw [hidle] at hpoller
      refine ⟨h.capShared, h.capShared, h.prod, h.cons, h.window, h.processed, h.taken_le,
        h.pusher, ?_⟩
      rw [hidle]
      exact hpoller
  | pollInvalidate hidle _ => exact h.invalidate hidle
  | pollProcess hloop hne => exact h.process hloop hne
  | pollDone hloop heq => exact h.finish hloop heq
  | pollFlush hflush => exact h.flush hflush (hcalm rfl)

theorem position_eq (h : CmdInv σ) : σ.position = BitVec.ofNat 32 σ.processed.length := by
  have hpoller := h.poller
  unfold CmdSide.position
  cases hq : σ.poller with
  | idle =>
      rw [hq] at hpoller
      rw [h.cons, hpoller]
  | looping cons =>
      rw [hq] at hpoller
      exact hpoller.1
  | flushing =>
      rw [hq] at hpoller
      exact hpoller.1

/-- **What was processed, followed by what is pending, is what was pushed.** -/
theorem history (h : CmdInv σ) : σ.pushed = σ.processed ++ σ.pending := by
  have hle := h.processed.length_le
  have hfits := h.window.fits
  have htaken := h.taken_le
  have hread := (h.window.advance h.taken_le hle).read
  have hsub : (σ.shared.prod - σ.position).toNat = σ.pushed.length - σ.processed.length := by
    rw [h.prod, h.position_eq]
    exact toNat_sub_ofNat hle (by omega)
  have hslot (i : Nat) : σ.shared.slotOf (σ.position + BitVec.ofNat 32 i) =
      (σ.processed.length + i) % 2 := by
    rw [h.position_eq, ← BitVec.ofNat_add, h.slotOf_ofNat]
  have hpending : σ.pending = σ.pushed.drop σ.processed.length := by
    rw [← hread, CmdSide.pending, hsub]
    simp only [hslot]
  obtain ⟨rest, hrest⟩ := h.processed
  rw [hpending, ← hrest]
  simp

end CmdInv

end CmdInv

/-! ### Events under calm flushes -/

/-- The emits whose record is in shared memory, and those that the producer index there counts. -/
def Emitter.flushed (emits : Nat) : Emitter → Nat
  | .idle | .ringDirty => emits
  | .slotDirty _       => emits - 1

def Emitter.published (emits : Nat) : Emitter → Nat
  | .idle => emits
  | .slotDirty _ | .ringDirty => emits - 1

/-- A record that is being published has a number. -/
def Emitter.Ok (emits : Nat) : Emitter → Prop
  | .idle => True
  | .slotDirty prod => prod = BitVec.ofNat 32 (emits - 1) ∧ 0 < emits
  | .ringDirty => 0 < emits

/-- Time and value are from one emit. -/
def whole (i : Nat) : Nat × Nat := (i, i)

/-- A drain has collected the next records in order, up to index `cons`. -/
def Collected (delivered : Nat) (cons : BitVec 32) (got : List (Nat × Nat)) : Prop :=
  cons = BitVec.ofNat 32 (delivered + got.length) ∧
    got = (List.range' delivered got.length).map whole

/-- What a drain has done so far is right. -/
def Drainer.Ok (delivered published : Nat) : Drainer → Prop
  | .idle => True
  | .looping _ cons got | .building cons got =>
      Collected delivered cons got ∧ delivered + got.length ≤ published
  | .reading _ cons got => Collected delivered cons got ∧ delivered + got.length < published
  | .half _ cons got time => Collected delivered cons got ∧ delivered + got.length < published ∧
      time = delivered + got.length

/-- The copy's consumer index is never reloaded, so no slot is used twice. -/
structure RingInv (σ : RingSide) : Prop where
  capShared : σ.shared.capacity = 256#32
  capCopy : σ.copy.capacity = 256#32
  copyCons : σ.copy.cons = 0#32
  copyProd : σ.copy.prod = BitVec.ofNat 32 σ.emits
  emits_le : σ.emits ≤ 256
  prod : σ.shared.prod = BitVec.ofNat 32 (σ.emitter.published σ.emits)
  cons : σ.shared.cons = BitVec.ofNat 32 σ.delivered.length
  delivered : σ.delivered = (List.range σ.delivered.length).map whole
  delivered_le : σ.delivered.length ≤ σ.emitter.published σ.emits
  origin : ∀ i < σ.emitter.flushed σ.emits, σ.origin i = i
  emitter : σ.emitter.Ok σ.emits
  drainer : σ.drainer.Ok σ.delivered.length (σ.emitter.published σ.emits)

section RingInv

variable {σ σ' : RingSide}

theorem ringInv_init (q : AmpRing) :
    RingInv ⟨ampRingInit q 256#32, ampRingInit q 256#32, .idle, .idle, 0, fun _ => 0, []⟩ where
  capShared := rfl
  capCopy := rfl
  copyCons := rfl
  copyProd := rfl
  emits_le := Nat.zero_le _
  prod := rfl
  cons := rfl
  delivered := rfl
  delivered_le := le_rfl
  origin := fun _ hi => absurd hi (Nat.not_lt_zero _)
  emitter := trivial
  drainer := trivial

theorem Emitter.published_le_flushed (emits : Nat) (e : Emitter) :
    e.published emits ≤ e.flushed emits := by
  cases e with
  | idle => exact le_rfl
  | slotDirty prod => exact le_rfl
  | ringDirty => exact Nat.sub_le _ _

theorem Emitter.flushed_le (emits : Nat) (e : Emitter) : e.flushed emits ≤ emits := by
  cases e with
  | idle => exact le_rfl
  | slotDirty prod => exact Nat.sub_le _ _
  | ringDirty => exact le_rfl

/-- More is published. -/
theorem Drainer.Ok.mono {delivered published published' : Nat} {d : Drainer}
    (h : d.Ok delivered published) (hle : published ≤ published') : d.Ok delivered published' := by
  cases d with
  | idle => trivial
  | looping n cons got => exact ⟨h.1, h.2.trans hle⟩
  | reading n cons got => exact ⟨h.1, h.2.trans_le hle⟩
  | half n cons got time => exact ⟨h.1, h.2.1.trans_le hle, h.2.2⟩
  | building cons got => exact ⟨h.1, h.2.trans hle⟩

namespace RingInv

variable {got : List (Nat × Nat)} {n : Nat}

theorem slotOf {i : Nat} {r : AmpRing} (hcap : r.capacity = 256#32) (hi : i < 256) :
    r.slotOf (BitVec.ofNat 32 i) = i := by
  rw [AmpRing.slotOf, hcap]
  exact (toNat_ofNat_mod (by decide) i).trans (Nat.mod_eq_of_lt hi)

theorem emitRoom (h : RingInv σ) (ts : UInt64) (value : Int64) (hidle : σ.emitter = .idle)
    (hroom : ¬ σ.copy.capacity ≤ σ.copy.prod - σ.copy.cons) :
    RingInv { σ with
      copy := (ampRingEmit σ.copy ts value).2
      emitter := .slotDirty σ.copy.prod
      emits := σ.emits + 1 } := by
  have hle := h.emits_le
  have hlt : σ.emits < 256 := by
    rw [h.capCopy, h.copyCons, h.copyProd, BitVec.sub_zero, BitVec.le_def, BitVec.toNat_ofNat,
      BitVec.toNat_ofNat] at hroom
    omega
  have hemit : (ampRingEmit σ.copy ts value).2 = { σ.copy with
      slots := update σ.copy.slots (σ.copy.slotOf σ.copy.prod) (emitted ts value)
      prod := σ.copy.prod + 1#32 } := by
    rw [ampRingEmit, if_neg hroom]
  have hprod := h.prod
  have hdel := h.delivered_le
  have horigin := h.origin
  have hdrain := h.drainer
  rw [hidle] at hprod hdel horigin hdrain
  rw [hemit]
  refine ⟨h.capShared, h.capCopy, h.copyCons, ?_, hlt, hprod, h.cons, h.delivered, hdel, horigin,
    ⟨h.copyProd, Nat.succ_pos _⟩, hdrain⟩
  rw [BitVec.ofNat_add, h.copyProd]

theorem flushSlot (h : RingInv σ) (hdirty : σ.emitter = .slotDirty prod) :
    RingInv { σ with
      shared := { σ.shared with
        slots := update σ.shared.slots (σ.copy.slotOf prod)
          (σ.copy.slots (σ.copy.slotOf prod)) }
      emitter := .ringDirty
      origin := update σ.origin (σ.copy.slotOf prod) (σ.emits - 1) } := by
  have hle := h.emits_le
  have hprod := h.prod
  have hdel := h.delivered_le
  have horigin := h.origin
  have hdrain := h.drainer
  have hemitter := h.emitter
  rw [hdirty] at hprod hdel horigin hdrain hemitter
  obtain ⟨hindex, hpos⟩ := hemitter
  have hslot : σ.copy.slotOf prod = σ.emits - 1 := by
    rw [hindex]
    exact slotOf h.capCopy (by omega)
  have hnumber (i : Nat) (hi : i < σ.emits) :
      update σ.origin (σ.emits - 1) (σ.emits - 1) i = i := by
    by_cases hlast : i = σ.emits - 1
    · rw [hlast, update_self]
    · rw [update_of_ne hlast]
      exact horigin i (show i < σ.emits - 1 by omega)
  rw [hslot]
  exact ⟨h.capShared, h.capCopy, h.copyCons, h.copyProd, hle, hprod, h.cons, h.delivered, hdel,
    hnumber, hpos, hdrain⟩

/-- A calm flush publishes the index of the record and nothing else. -/
theorem flushRing (h : RingInv σ) (hdirty : σ.emitter = .ringDirty)
    (hcalm : σ.shared.cons = σ.copy.cons) :
    RingInv { σ with
      shared := { σ.copy with slots := σ.shared.slots }
      emitter := .idle } := by
  have hdel := h.delivered_le
  have horigin := h.origin
  have hdrain := h.drainer
  rw [hdirty] at hdel horigin hdrain
  exact ⟨h.capCopy, h.capCopy, h.copyCons, h.copyProd, h.emits_le, h.copyProd, hcalm ▸ h.cons,
    h.delivered, hdel.trans (Nat.sub_le _ _), horigin, trivial, hdrain.mono (Nat.sub_le _ _)⟩

theorem setDrainer {d : Drainer} (h : RingInv σ)
    (hd : d.Ok σ.delivered.length (σ.emitter.published σ.emits)) :
    RingInv { σ with drainer := d } :=
  ⟨h.capShared, h.capCopy, h.copyCons, h.copyProd, h.emits_le, h.prod, h.cons, h.delivered,
    h.delivered_le, h.origin, h.emitter, hd⟩

/-- The slot at the next index holds the record of the next emit. -/
theorem origin_next (h : RingInv σ) (hgot : Collected σ.delivered.length cons got)
    (hlt : σ.delivered.length + got.length < σ.emitter.published σ.emits) :
    σ.origin (σ.shared.slotOf cons) = σ.delivered.length + got.length := by
  have hflushed := hlt.trans_le (σ.emitter.published_le_flushed σ.emits)
  have hsmall := hflushed.trans_le ((σ.emitter.flushed_le σ.emits).trans h.emits_le)
  rw [hgot.1, slotOf h.capShared hsmall]
  exact h.origin _ hflushed

theorem drainMore (h : RingInv σ) (hd : σ.drainer = .looping (n + 1) cons got)
    (hne : cons ≠ σ.shared.prod) :
    RingInv { σ with drainer := .reading n cons got } := by
  have hdrain := h.drainer
  rw [hd] at hdrain
  obtain ⟨hgot, hle⟩ := hdrain
  refine h.setDrainer ⟨hgot, lt_of_le_of_ne hle fun he => hne ?_⟩
  rw [hgot.1, h.prod, he]

theorem drainTime (h : RingInv σ) (hd : σ.drainer = .reading n cons got) :
    RingInv { σ with drainer := .half n cons got (σ.origin (σ.shared.slotOf cons)) } := by
  have hdrain := h.drainer
  rw [hd] at hdrain
  exact h.setDrainer ⟨hdrain.1, hdrain.2, h.origin_next hdrain.1 hdrain.2⟩

/-- A calm flush in between publishes more and overwrites nothing, so the record is whole. -/
theorem drainValue {time : Nat} (h : RingInv σ) (hd : σ.drainer = .half n cons got time) :
    RingInv { σ with
      drainer := .looping n (cons + 1#32) (got ++ [(time, σ.origin (σ.shared.slotOf cons))]) } := by
  have hdrain := h.drainer
  rw [hd] at hdrain
  obtain ⟨hgot, hlt, rfl⟩ := hdrain
  rw [h.origin_next hgot hlt]
  refine h.setDrainer ⟨⟨?_, ?_⟩, ?_⟩
  · rw [List.length_append, ← Nat.add_assoc, BitVec.ofNat_add, hgot.1]
    rfl
  · rw [List.length_append, List.length_singleton, List.range'_concat, List.map_append, ← hgot.2,
      Nat.one_mul]
    rfl
  · rw [List.length_append]
    exact hlt

theorem commit (h : RingInv σ) (hd : σ.drainer = .building cons got) :
    RingInv { σ with
      shared := { σ.shared with cons := cons }
      drainer := .idle
      delivered := σ.delivered ++ got } := by
  have hdrain := h.drainer
  rw [hd] at hdrain
  obtain ⟨⟨hcons, hgot⟩, hle⟩ := hdrain
  have hlen : (σ.delivered ++ got).length = σ.delivered.length + got.length := List.length_append
  refine ⟨h.capShared, h.capCopy, h.copyCons, h.copyProd, h.emits_le, h.prod, ?_, ?_, ?_, h.origin,
    h.emitter, trivial⟩
  · rw [hlen]
    exact hcons
  · have hrange : List.range σ.delivered.length ++ List.range' σ.delivered.length got.length =
        List.range (σ.delivered.length + got.length) := by
      rw [List.range_eq_range', List.range_eq_range', ← List.range'_append_1, Nat.zero_add]
    rw [hlen, ← hrange, List.map_append, ← hgot, ← h.delivered]
  · rw [hlen]
    exact hle

/-- **Every step keeps the invariant, if its flush is calm.** -/
theorem step {fl : Bool} (hs : RingStep σ fl σ') (h : RingInv σ)
    (hcalm : fl = true → σ.shared.cons = σ.copy.cons) : RingInv σ' := by
  cases hs with
  | emitFull _ _ => exact h
  | emitRoom ts value hidle hroom => exact h.emitRoom ts value hidle hroom
  | flushSlot hdirty => exact h.flushSlot hdirty
  | flushRing hdirty => exact h.flushRing hdirty (hcalm rfl)
  | drainRefuse _ _ => exact h
  | drainBegin n _ _ => exact h.setDrainer ⟨⟨h.cons, rfl⟩, h.delivered_le⟩
  | drainMore hd hne => exact h.drainMore hd hne
  | drainTime hd => exact h.drainTime hd
  | drainValue hd => exact h.drainValue hd
  | drainStop hd _ =>
      have hdrain := h.drainer
      rw [hd] at hdrain
      exact h.setDrainer hdrain
  | drainNothing _ => exact h.setDrainer trivial
  | drainCommit hd => exact h.commit hd

end RingInv

end RingInv

/-! ### Both rings -/

theorem calm_inv {r : AmpCmdRing} {q : AmpRing} {σ : System}
    (hrun : CalmSteps (System.start r q) σ) : CmdInv σ.cmd ∧ RingInv σ.ring := by
  induction hrun with
  | refl => exact ⟨cmdInv_init r, ringInv_init q⟩
  | tail _ hstep ih =>
      obtain ⟨l, hs, hcalm⟩ := hstep
      cases hs with
      | cmd hs => exact ⟨ih.1.step hs fun hfl => by subst hfl; exact hcalm, ih.2⟩
      | ring hs => exact ⟨ih.1, ih.2.step hs fun hfl => by subst hfl; exact hcalm⟩

/-- **With calm flushes the cache does no harm.**  In every state of every interleaving in which
each flush finds the other core's index as it is in the copy, the commands pushed are those
processed, once and in order, followed by those pending, and no record has been delivered twice or
put together from two. -/
theorem calm_exact {r : AmpCmdRing} {q : AmpRing} {σ : System}
    (hrun : CalmSteps (System.start r q) σ) :
    σ.cmd.pushed = σ.cmd.processed ++ σ.cmd.pending ∧ σ.ring.delivered.Nodup ∧
      ∀ d ∈ σ.ring.delivered, d.1 = d.2 := by
  obtain ⟨hcmd, hring⟩ := calm_inv hrun
  refine ⟨hcmd.history, ?_, ?_⟩
  · rw [hring.delivered]
    exact List.nodup_range.map fun i j h => (Prod.mk.inj h).1
  · rw [hring.delivered]
    exact List.forall_mem_map.mpr fun i _ => rfl

/-- After the initialisation over cleared memory. -/
def cold : System := .start HotSwap.blank.cmd HotSwap.blank.ring

/-- A command. -/
def teardown : AmpCmdRec := ⟨ampCmdTeardown, 1#32, 0#32, 0#32, fun _ => 0⟩

/-- A command that is pushed before the poll is processed, and a record that is emitted before the
drain is delivered. -/
theorem calm_exact_cold : ∃ σ, CalmSteps cold σ ∧ σ.cmd.processed = [teardown] ∧
    σ.ring.delivered = [(0, 0)] ∧ σ.cmd.pushed = σ.cmd.processed ++ σ.cmd.pending ∧
    σ.ring.delivered.Nodup ∧ ∀ d ∈ σ.ring.delivered, d.1 = d.2 := by
  have hpush := ((((Relation.ReflTransGen.refl : CalmSteps cold cold).tail
    ⟨_, .cmd (.pushLoad teardown rfl rfl), trivial⟩).tail
    ⟨_, .cmd (.pushRoom rfl (by decide)), trivial⟩).tail
    ⟨_, .cmd (.pushStore rfl), trivial⟩).tail
    ⟨_, .cmd (.pushPublish rfl), trivial⟩
  have hpoll := (((hpush.tail ⟨_, .cmd (.pollInvalidate rfl rfl), trivial⟩).tail
    ⟨_, .cmd (.pollProcess rfl (by decide)), trivial⟩).tail
    ⟨_, .cmd (.pollDone rfl (by decide)), trivial⟩).tail
    ⟨_, .cmd (.pollFlush rfl), rfl⟩
  have hemit := ((hpoll.tail ⟨_, .ring (.emitRoom 0 5 rfl (by decide)), trivial⟩).tail
    ⟨_, .ring (.flushSlot rfl), trivial⟩).tail
    ⟨_, .ring (.flushRing rfl), rfl⟩
  have hread := (((hemit.tail ⟨_, .ring (.drainBegin 64 rfl rfl), trivial⟩).tail
    ⟨_, .ring (.drainMore rfl (by decide)), trivial⟩).tail
    ⟨_, .ring (.drainTime rfl), trivial⟩).tail
    ⟨_, .ring (.drainValue rfl), trivial⟩
  have hdrain := (hread.tail ⟨_, .ring (.drainStop rfl (.inr (by decide))), trivial⟩).tail
    ⟨_, .ring (.drainCommit rfl), trivial⟩
  exact ⟨_, hdrain, rfl, rfl, calm_exact hdrain⟩

/-- **A flush writes back a stale index.**  A command pushed between the invalidation and the flush
of a poll is lost: the push has returned 1, the command is not processed and the ring is empty.  An
emit after a drain takes the consumer index back: record 0 is delivered by two drains. -/
theorem stale_flush :
    (∃ σ, Steps cold σ ∧ σ.cmd.pushed = [teardown] ∧ σ.cmd.processed = [] ∧ σ.cmd.pending = []) ∧
    ∃ σ, Steps cold σ ∧ σ.ring.delivered = [(0, 0), (0, 0), (1, 1)] := by
  constructor
  · have hpush := (((((Relation.ReflTransGen.refl : Steps cold cold).tail
      ⟨_, .cmd (.pollInvalidate rfl rfl)⟩).tail
      ⟨_, .cmd (.pushLoad teardown rfl rfl)⟩).tail
      ⟨_, .cmd (.pushRoom rfl (by decide))⟩).tail
      ⟨_, .cmd (.pushStore rfl)⟩).tail
      ⟨_, .cmd (.pushPublish rfl)⟩
    have hflush := (hpush.tail ⟨_, .cmd (.pollDone rfl (by decide))⟩).tail ⟨_, .cmd (.pollFlush rfl)⟩
    exact ⟨_, hflush, rfl, rfl, rfl⟩
  · have hemit := (((Relation.ReflTransGen.refl : Steps cold cold).tail
      ⟨_, .ring (.emitRoom 0 5 rfl (by decide))⟩).tail
      ⟨_, .ring (.flushSlot rfl)⟩).tail
      ⟨_, .ring (.flushRing rfl)⟩
    have hdrain := (((((hemit.tail ⟨_, .ring (.drainBegin 64 rfl rfl)⟩).tail
      ⟨_, .ring (.drainMore rfl (by decide))⟩).tail
      ⟨_, .ring (.drainTime rfl)⟩).tail
      ⟨_, .ring (.drainValue rfl)⟩).tail
      ⟨_, .ring (.drainStop rfl (.inr (by decide)))⟩).tail
      ⟨_, .ring (.drainCommit rfl)⟩
    have hagain := ((hdrain.tail ⟨_, .ring (.emitRoom 1 6 rfl (by decide))⟩).tail
      ⟨_, .ring (.flushSlot rfl)⟩).tail
      ⟨_, .ring (.flushRing rfl)⟩
    have hfirst := (((hagain.tail ⟨_, .ring (.drainBegin 64 rfl rfl)⟩).tail
      ⟨_, .ring (.drainMore rfl (by decide))⟩).tail
      ⟨_, .ring (.drainTime rfl)⟩).tail
      ⟨_, .ring (.drainValue rfl)⟩
    have htwice := ((((hfirst.tail ⟨_, .ring (.drainMore rfl (by decide))⟩).tail
      ⟨_, .ring (.drainTime rfl)⟩).tail
      ⟨_, .ring (.drainValue rfl)⟩).tail
      ⟨_, .ring (.drainStop rfl (.inr (by decide)))⟩).tail
      ⟨_, .ring (.drainCommit rfl)⟩
    exact ⟨_, htwice, rfl⟩

end SpinelEbpf.Amp.Cached

import SpinelEbpf.Amp.Ring

/-!
# Amp — the event ring under interleaving

The producer and the consumer of the ring run on two cores, so between any two accesses of one
to the shared memory the other may make any number of its own.  `Step` is that machine: every
read and every store of `amp_ring_emit`, `amp_ring_drain_logs` and `amp_ring_drain_trace` that
touches shared memory is a step of its own, the five stores of an emit into its slot and the two
reads of a drain from its slot included.

The system carries its history: `accepted` lists what the emits that returned 1 were given, in
order, and `handed` what the successful drains gave to their builds.  `Inv` ties the two to the
ring through `Spsc.Window`, with the positions in the history as the indices before they wrap;
every step keeps it (`Step.inv`), and so it holds in every reachable state (`inv_of_reachable`).
-/

namespace SpinelEbpf.Amp.EventRing
open Function Spsc

/-- What an emit is given: the time and the value. -/
abbrev Payload := UInt64 × Int64

/-- The record of a payload. -/
def record (p : Payload) : AmpRingRec := emitted p.1 p.2

/-- The stores of an emit into its slot, in order. -/
def emitStores (p : Payload) : List (AmpRingRec → AmpRingRec) :=
  [fun r => { r with hdr := { r.hdr with type := 0x0100#16 } },
   fun r => { r with hdr := { r.hdr with version := 1#16 } },
   fun r => { r with hdr := { r.hdr with reserved := 0#32 } },
   fun r => { r with hdr := { r.hdr with timestamp := p.1 } },
   fun r => { r with value := p.2 }]

/-- Where the producer stands in `amp_ring_emit`. -/
inductive Producer where
  | idle
  /-- `prod` has been read. -/
  | loaded (p : Payload) (prod : BitVec 32)
  /-- There was room; the stores still to be made. -/
  | storing (p : Payload) (prod : BitVec 32) (stores : List (AmpRingRec → AmpRingRec))

/-- Which drain the consumer runs, with the number of records it was asked for. -/
inductive DrainKind where
  | logs (max : Nat)
  | trace
  deriving DecidableEq, Repr

def DrainKind.limit : DrainKind → Nat
  | logs max => drainLimit max
  | trace    => ampDrainMax

/-- Where the consumer stands in its drain. -/
inductive Consumer where
  | idle
  /-- At the loop's test, with room for `n` more. -/
  | looping (kind : DrainKind) (n : Nat) (cons : BitVec 32) (got : List Payload)
  /-- The test has passed. -/
  | reading (kind : DrainKind) (n : Nat) (cons : BitVec 32) (got : List Payload)
  /-- The slot's time has been read. -/
  | half (kind : DrainKind) (n : Nat) (cons : BitVec 32) (got : List Payload) (ts : UInt64)
  /-- The loop is over. -/
  | building (kind : DrainKind) (cons : BitVec 32) (got : List Payload)

/-- The ring, the two cores, and the history. -/
structure System where
  ring : AmpRing
  producer : Producer
  consumer : Consumer
  accepted : List Payload
  handed : List Payload

inductive Event where
  /-- A step of the producer inside its call. -/
  | producer
  /-- A step of the consumer inside its call. -/
  | consumer
  | emitReturns (ret : Int)
  | drainReturns (ret : Int)

/-- A log drain with nothing collected returns before it builds. -/
def builds : DrainKind → List Payload → Prop
  | .logs _, got => got ≠ []
  | .trace, _    => True

/-- The steps of the two cores. -/
inductive Step : System → Event → System → Prop where
  | emitLoad {σ : System} (p : Payload) (h : σ.producer = .idle) :
      Step σ .producer { σ with producer := .loaded p σ.ring.prod }
  | emitFull {σ : System} {p : Payload} {prod : BitVec 32} (h : σ.producer = .loaded p prod)
      (hfull : σ.ring.capacity ≤ prod - σ.ring.cons) :
      Step σ (.emitReturns 0) { σ with producer := .idle }
  | emitRoom {σ : System} {p : Payload} {prod : BitVec 32} (h : σ.producer = .loaded p prod)
      (hroom : ¬ σ.ring.capacity ≤ prod - σ.ring.cons) :
      Step σ .producer { σ with producer := .storing p prod (emitStores p) }
  | emitStore {σ : System} {p : Payload} {prod : BitVec 32} {f : AmpRingRec → AmpRingRec}
      {stores : List (AmpRingRec → AmpRingRec)} (h : σ.producer = .storing p prod (f :: stores)) :
      Step σ .producer { σ with
        ring := { σ.ring with
          slots := update σ.ring.slots (σ.ring.slotOf prod)
            (f (σ.ring.slots (σ.ring.slotOf prod))) }
        producer := .storing p prod stores }
  | emitPublish {σ : System} {p : Payload} {prod : BitVec 32}
      (h : σ.producer = .storing p prod []) :
      Step σ (.emitReturns 1) { σ with
        ring := { σ.ring with prod := prod + 1#32 }
        producer := .idle
        accepted := σ.accepted ++ [p] }
  | drainRefuse {σ : System} (h : σ.consumer = .idle) (hm : σ.ring.magic ≠ ampRingMagic) :
      Step σ (.drainReturns (-1)) σ
  | drainBegin {σ : System} (kind : DrainKind) (h : σ.consumer = .idle)
      (hm : σ.ring.magic = ampRingMagic) :
      Step σ .consumer { σ with consumer := .looping kind kind.limit σ.ring.cons [] }
  | drainMore {σ : System} {kind : DrainKind} {n : Nat} {cons : BitVec 32} {got : List Payload}
      (h : σ.consumer = .looping kind (n + 1) cons got) (hne : cons ≠ σ.ring.prod) :
      Step σ .consumer { σ with consumer := .reading kind n cons got }
  | drainTime {σ : System} {kind : DrainKind} {n : Nat} {cons : BitVec 32} {got : List Payload}
      (h : σ.consumer = .reading kind n cons got) :
      Step σ .consumer { σ with
        consumer := .half kind n cons got (σ.ring.slots (σ.ring.slotOf cons)).hdr.timestamp }
  | drainValue {σ : System} {kind : DrainKind} {n : Nat} {cons : BitVec 32} {got : List Payload}
      {ts : UInt64} (h : σ.consumer = .half kind n cons got ts) :
      Step σ .consumer { σ with
        consumer := .looping kind n (cons + 1#32)
          (got ++ [(ts, (σ.ring.slots (σ.ring.slotOf cons)).value)]) }
  | drainStop {σ : System} {kind : DrainKind} {n : Nat} {cons : BitVec 32} {got : List Payload}
      (h : σ.consumer = .looping kind n cons got) (hs : n = 0 ∨ cons = σ.ring.prod) :
      Step σ .consumer { σ with consumer := .building kind cons got }
  | drainEmpty {σ : System} {kind : DrainKind} {cons : BitVec 32} {got : List Payload}
      (h : σ.consumer = .building kind cons got) (hb : ¬ builds kind got) :
      Step σ (.drainReturns 0) { σ with consumer := .idle }
  | drainFail {σ : System} {kind : DrainKind} {cons : BitVec 32} {got : List Payload}
      (h : σ.consumer = .building kind cons got) (hb : builds kind got) :
      Step σ (.drainReturns (-1)) { σ with consumer := .idle }
  | drainCommit {σ : System} {kind : DrainKind} {cons : BitVec 32} {got : List Payload} {len : Int}
      (h : σ.consumer = .building kind cons got) (hb : builds kind got) (hlen : 0 ≤ len) :
      Step σ (.drainReturns len) { σ with
        ring := { σ.ring with cons := cons }
        consumer := .idle
        handed := σ.handed ++ got }

/-- A freshly initialised ring over any memory, both cores idle. -/
def System.init (r : AmpRing) (capacity : BitVec 32) : System where
  ring := ampRingInit r capacity
  producer := .idle
  consumer := .idle
  accepted := []
  handed := []

/-- Any number of steps of either core. -/
abbrev Steps : System → System → Prop := Relation.ReflTransGen fun σ σ' => ∃ ev, Step σ ev σ'

/-- Any number of steps with the same event: one core alone, inside its call. -/
abbrev Run (ev : Event) : System → System → Prop := Relation.ReflTransGen fun σ σ' => Step σ ev σ'

/-- The states any interleaving reaches. -/
def Reachable (r : AmpRing) (capacity : BitVec 32) : System → Prop :=
  Steps (System.init r capacity)

/-- The unread records: the slots from the consumer index to the producer index. -/
def unread (r : AmpRing) : List AmpRingRec :=
  (List.range (r.prod - r.cons).toNat).map fun i => r.slots (r.slotOf (r.cons + BitVec.ofNat 32 i))

/-! ### The invariant -/

/-- What the producer has done so far is right. -/
def Producer.Ok (σ : System) : Producer → Prop
  | .idle => True
  | .loaded _ prod => prod = σ.ring.prod
  | .storing p prod stores =>
      prod = σ.ring.prod ∧ σ.accepted.length < σ.handed.length + σ.ring.capacity.toNat ∧
        stores.foldl (fun r f => f r) (σ.ring.slots (σ.ring.slotOf prod)) = record p

/-- The consumer has collected the next records of the history, up to index `cons`. -/
def Collected (σ : System) (cons : BitVec 32) (got : List Payload) : Prop :=
  cons = BitVec.ofNat 32 (σ.handed ++ got).length ∧ σ.handed ++ got <+: σ.accepted

/-- What the consumer has done so far is right. -/
def Consumer.Ok (σ : System) : Consumer → Prop
  | .idle => True
  | .looping _ _ cons got | .building _ cons got => Collected σ cons got
  | .reading _ _ cons got =>
      Collected σ cons got ∧ ∃ p, σ.accepted[(σ.handed ++ got).length]? = some p
  | .half _ _ cons got ts =>
      Collected σ cons got ∧ ∃ p, σ.accepted[(σ.handed ++ got).length]? = some p ∧ p.1 = ts

/-- The ring holds the part of the history that has not been handed over. -/
structure Inv (σ : System) : Prop where
  dvd : σ.ring.capacity.toNat ∣ 2 ^ 32
  small : σ.ring.capacity.toNat < 2 ^ 32
  prod : σ.ring.prod = BitVec.ofNat 32 σ.accepted.length
  cons : σ.ring.cons = BitVec.ofNat 32 σ.handed.length
  handed : σ.handed <+: σ.accepted
  window : Window σ.ring.capacity.toNat σ.ring.slots (σ.accepted.map record) σ.handed.length
  producer : σ.producer.Ok σ
  consumer : σ.consumer.Ok σ

theorem inv_init {r : AmpRing} {capacity : BitVec 32} (hdvd : capacity.toNat ∣ 2 ^ 32) :
    Inv (System.init r capacity) where
  dvd := hdvd
  small := capacity.isLt
  prod := rfl
  cons := rfl
  handed := List.prefix_refl _
  window := .empty
  producer := trivial
  consumer := trivial

variable {σ' : System} {got : List Payload} {p : Payload} {cons : BitVec 32} {ev : Event}

/-- The consumer's part only looks at the history, and the history only grows. -/
theorem Consumer.Ok.mono {σ : System} {c : Consumer} (h : c.Ok σ) (hh : σ'.handed = σ.handed)
    (ha : σ.accepted <+: σ'.accepted) : c.Ok σ' := by
  have collected {cons : BitVec 32} {got : List Payload} (h : Collected σ cons got) :
      Collected σ' cons got := by
    unfold Collected at h ⊢
    rw [hh]
    exact ⟨h.1, h.2.trans ha⟩
  have get {i : Nat} {p : Payload} (h : σ.accepted[i]? = some p) : σ'.accepted[i]? = some p := by
    obtain ⟨rest, hrest⟩ := ha
    rw [← hrest, List.getElem?_append_left (List.getElem?_eq_some_iff.mp h).1, h]
  cases c with
  | idle => trivial
  | looping | building => exact collected h
  | reading =>
      obtain ⟨hc, p, hp⟩ := h
      exact ⟨collected hc, p, by rw [hh]; exact get hp⟩
  | half =>
      obtain ⟨hc, p, hp, hts⟩ := h
      exact ⟨collected hc, p, by rw [hh]; exact get hp, hts⟩

section Inv

variable {σ : System}

theorem Inv.length_le (h : Inv σ) :
    σ.handed.length ≤ σ.accepted.length ∧
      σ.accepted.length ≤ σ.handed.length + σ.ring.capacity.toNat := by
  have hw := h.window
  exact ⟨by simpa using hw.taken_le, by simpa using hw.fits⟩

/-- The indices tell the number of unread records. -/
theorem Inv.toNat_sub (h : Inv σ) :
    (σ.ring.prod - σ.ring.cons).toNat = σ.accepted.length - σ.handed.length := by
  have hl := h.length_le
  have hs := h.small
  rw [h.prod, h.cons]
  exact toNat_sub_ofNat hl.1 (by omega)

theorem Inv.length_unread (h : Inv σ) :
    (unread σ.ring).length = σ.accepted.length - σ.handed.length := by
  simp only [unread, List.length_map, List.length_range, h.toNat_sub]

/-- The ring is full exactly when the history is `capacity` records ahead. -/
theorem Inv.full_iff (h : Inv σ) :
    σ.ring.capacity ≤ σ.ring.prod - σ.ring.cons ↔
      σ.accepted.length = σ.handed.length + σ.ring.capacity.toNat := by
  have hl := h.length_le
  rw [BitVec.le_def, h.toNat_sub]
  omega

theorem Inv.slotOf_prod (h : Inv σ) :
    σ.ring.slotOf σ.ring.prod = (σ.accepted.map record).length % σ.ring.capacity.toNat := by
  rw [AmpRing.slotOf, h.prod, toNat_ofNat_mod h.dvd, List.length_map]

/-- The slot of a collected position holds the record of that position. -/
theorem Inv.slot (h : Inv σ) (hc : Collected σ cons got)
    (hp : σ.accepted[(σ.handed ++ got).length]? = some p) :
    σ.ring.slots (σ.ring.slotOf cons) = record p := by
  rw [AmpRing.slotOf, hc.1, toNat_ofNat_mod h.dvd]
  exact h.window.slot _ _ (by simp) (by rw [List.getElem?_map, hp]; rfl)

/-- An index short of the producer's has a record to read. -/
theorem Inv.next_of_ne (h : Inv σ) (hc : Collected σ cons got) (hne : cons ≠ σ.ring.prod) :
    ∃ p, σ.accepted[(σ.handed ++ got).length]? = some p := by
  have hle := hc.2.length_le
  have hlt : (σ.handed ++ got).length < σ.accepted.length := by
    refine Nat.lt_of_le_of_ne hle fun heq => hne ?_
    rw [hc.1, h.prod, heq]
  exact ⟨_, List.getElem?_eq_getElem hlt⟩

/-- One more record collected. -/
theorem Collected.snoc (hc : Collected σ cons got)
    (hp : σ.accepted[(σ.handed ++ got).length]? = some p) :
    Collected σ (cons + 1#32) (got ++ [p]) := by
  obtain ⟨hcons, hpre⟩ := hc
  refine ⟨?_, by rw [← List.append_assoc]; exact prefix_snoc hpre hp⟩
  have hlen : (σ.handed ++ (got ++ [p])).length = (σ.handed ++ got).length + 1 := by
    simp [Nat.add_assoc]
  rw [hcons, hlen, BitVec.ofNat_add]

/-- **What was handed over, followed by what is unread, is what was accepted.** -/
theorem Inv.history (h : Inv σ) :
    σ.handed.map record ++ unread σ.ring = σ.accepted.map record := by
  have hread := h.window.read
  obtain ⟨rest, hrest⟩ := h.handed
  have hslot (i : Nat) : σ.ring.slotOf (σ.ring.cons + BitVec.ofNat 32 i) =
      (σ.handed.length + i) % σ.ring.capacity.toNat := by
    rw [AmpRing.slotOf, h.cons, ← BitVec.ofNat_add, toNat_ofNat_mod h.dvd]
  have hunread : unread σ.ring = (σ.accepted.map record).drop σ.handed.length := by
    rw [← hread, unread, h.toNat_sub, List.length_map]
    simp only [hslot]
  rw [hunread, ← hrest]
  simp

end Inv

/-! ### Steps and runs -/

section Step

variable {σ : System}

/-- A step of the producer that touches nothing but its own place. -/
theorem Inv.setProducer {p : Producer} (h : Inv σ) (hp : p.Ok σ) :
    Inv { σ with producer := p } :=
  { h with
    producer := by cases p <;> exact hp
    consumer := h.consumer.mono rfl (List.prefix_refl _) }

/-- A step of the consumer that touches nothing but its own place. -/
theorem Inv.setConsumer {c : Consumer} (h : Inv σ) (hc : c.Ok σ) :
    Inv { σ with consumer := c } :=
  { h with
    producer := by
      have hp := h.producer
      cases hσ : σ.producer <;> rw [hσ] at hp <;> exact hp
    consumer := hc.mono rfl (List.prefix_refl _) }

theorem Inv.store {prod : BitVec 32} {f : AmpRingRec → AmpRingRec}
    {stores : List (AmpRingRec → AmpRingRec)} (h : Inv σ)
    (hp : σ.producer = .storing p prod (f :: stores)) :
    Inv { σ with
      ring := { σ.ring with
        slots := update σ.ring.slots (σ.ring.slotOf prod)
          (f (σ.ring.slots (σ.ring.slotOf prod))) }
      producer := .storing p prod stores } := by
  have hok := h.producer
  rw [hp] at hok
  obtain ⟨rfl, hroom, hfold⟩ := hok
  refine { h with
    window := ?_
    producer := ⟨rfl, hroom, ?_⟩
    consumer := h.consumer.mono rfl (List.prefix_refl _) }
  · rw [h.slotOf_prod]
    exact h.window.scratch (by simpa using hroom) _
  · simp only [AmpRing.slotOf, update_self]
    exact hfold

theorem Inv.publish {prod : BitVec 32} (h : Inv σ) (hp : σ.producer = .storing p prod []) :
    Inv { σ with
      ring := { σ.ring with prod := prod + 1#32 }
      producer := .idle
      accepted := σ.accepted ++ [p] } := by
  have hok := h.producer
  rw [hp] at hok
  obtain ⟨rfl, hroom, hfold⟩ := hok
  refine { h with
    prod := ?_
    handed := h.handed.trans (List.prefix_append _ _)
    window := ?_
    producer := trivial
    consumer := h.consumer.mono rfl (List.prefix_append _ _) }
  · simp only [h.prod, List.length_append, List.length_singleton, BitVec.ofNat_add]
  · rw [List.map_append]
    refine h.window.push (by simpa using hroom) ?_
    rw [← h.slotOf_prod]
    exact hfold

theorem Inv.commit {kind : DrainKind} (h : Inv σ) (hc : σ.consumer = .building kind cons got) :
    Inv { σ with
      ring := { σ.ring with cons := cons }
      consumer := .idle
      handed := σ.handed ++ got } := by
  have hok := h.consumer
  rw [hc] at hok
  obtain ⟨hcons, hpre⟩ := hok
  refine { h with
    cons := hcons
    handed := hpre
    window := h.window.advance (by simp) (by simpa using hpre.length_le)
    producer := ?_
    consumer := trivial }
  have hp := h.producer
  cases hσ : σ.producer with
  | idle => trivial
  | loaded => rw [hσ] at hp; exact hp
  | storing =>
      rw [hσ] at hp
      refine ⟨hp.1, ?_, hp.2.2⟩
      have := hp.2.1
      simp only [List.length_append]
      omega

/-- **Every step keeps the invariant.** -/
theorem Step.inv (h : Step σ ev σ') (hi : Inv σ) : Inv σ' := by
  cases h with
  | emitLoad => exact hi.setProducer rfl
  | emitFull => exact hi.setProducer trivial
  | emitRoom hp hroom =>
      have hok := hi.producer
      rw [hp] at hok
      obtain rfl := hok
      rw [hi.full_iff] at hroom
      have hl := hi.length_le
      exact hi.setProducer ⟨rfl, by omega, rfl⟩
  | emitStore hp => exact hi.store hp
  | emitPublish hp => exact hi.publish hp
  | drainRefuse => exact hi
  | drainBegin => exact hi.setConsumer ⟨by simp [hi.cons], by simpa using hi.handed⟩
  | drainMore hc hne =>
      have hok := hi.consumer
      rw [hc] at hok
      exact hi.setConsumer ⟨hok, hi.next_of_ne hok hne⟩
  | drainTime hc =>
      have hok := hi.consumer
      rw [hc] at hok
      obtain ⟨hcol, p, hp⟩ := hok
      exact hi.setConsumer ⟨hcol, p, hp, by rw [hi.slot hcol hp]; rfl⟩
  | drainValue hc =>
      have hok := hi.consumer
      rw [hc] at hok
      obtain ⟨hcol, p, hp, rfl⟩ := hok
      refine hi.setConsumer ?_
      rw [hi.slot hcol hp]
      exact hcol.snoc hp
  | drainStop hc =>
      have hok := hi.consumer
      rw [hc] at hok
      exact hi.setConsumer hok
  | drainEmpty | drainFail => exact hi.setConsumer trivial
  | drainCommit hc => exact hi.commit hc

theorem Step.capacity_eq (h : Step σ ev σ') :
    σ'.ring.capacity = σ.ring.capacity := by
  cases h <;> rfl

/-- An emit returns 0 exactly when it finds the ring full. -/
theorem Step.emitReturns_iff {ret : Int} (h : Step σ (.emitReturns ret) σ') (hi : Inv σ) :
    ret = 0 ↔ (unread σ.ring).length = σ.ring.capacity.toNat := by
  have hl := hi.length_le
  have hok := hi.producer
  rw [hi.length_unread]
  cases h with
  | emitFull hp hfull =>
      rw [hp] at hok
      obtain rfl := hok
      rw [hi.full_iff] at hfull
      exact iff_of_true rfl (by omega)
  | emitPublish hp =>
      rw [hp] at hok
      have hroom := hok.2.1
      exact iff_of_false (by decide) (by omega)

/-- Until it commits, a drain only reads. -/
theorem Step.drain_reads (h : Step σ ev σ')
    (hev : ev = .consumer ∨ ∃ ret < 0, ev = .drainReturns ret) :
    σ'.ring = σ.ring ∧ σ'.accepted = σ.accepted ∧ σ'.handed = σ.handed := by
  cases h with
  | drainCommit _ _ hlen =>
      rcases hev with hev | ⟨ret, hneg, hev⟩
      · cases hev
      · injection hev with hret
        omega
  | drainRefuse | drainBegin | drainMore | drainTime | drainValue | drainStop | drainEmpty
  | drainFail => exact ⟨rfl, rfl, rfl⟩
  | emitLoad | emitFull | emitRoom | emitStore | emitPublish => simp at hev

end Step

theorem inv_of_reachable {r : AmpRing} {capacity : BitVec 32} {σ : System}
    (hdvd : capacity.toNat ∣ 2 ^ 32) (h : Reachable r capacity σ) :
    Inv σ ∧ σ.ring.capacity = capacity := by
  induction h with
  | refl => exact ⟨inv_init hdvd, rfl⟩
  | tail _ hstep ih =>
      obtain ⟨ev, hstep⟩ := hstep
      exact ⟨hstep.inv ih.1, hstep.capacity_eq.trans ih.2⟩

/-! ### Whole calls -/

/-- What a drain keeps of a record. -/
def payload (src : AmpRingRec) : Payload := (src.hdr.timestamp, src.value)

/-- The state after a call of `amp_ring_emit`. -/
def System.emit (σ : System) (p : Payload) : System :=
  { σ with
    ring := (ampRingEmit σ.ring p.1 p.2).2
    producer := .idle
    accepted := if (ampRingEmit σ.ring p.1 p.2).1 = 1 then σ.accepted ++ [p] else σ.accepted }

/-- The state after a drain that takes up to `limit` records: they count as handed over unless it
returns an error. -/
def System.drain (σ : System) (limit : Nat) (result : Drained) : System :=
  { σ with
    ring := result.ring
    consumer := .idle
    handed := if result.ret < 0 then σ.handed
      else σ.handed ++ (drainLoop σ.ring limit σ.ring.cons).1.map payload }

section Calls

variable {σ : System}

/-- The stores of an emit, one after the other. -/
theorem stores_run (p : Payload) (prod : BitVec 32) :
    ∀ (stores : List (AmpRingRec → AmpRingRec)) {σ : System},
      σ.producer = .storing p prod stores →
      Run .producer σ { σ with
        ring := { σ.ring with
          slots := update σ.ring.slots (σ.ring.slotOf prod)
            (stores.foldl (fun r f => f r) (σ.ring.slots (σ.ring.slotOf prod))) }
        producer := .storing p prod [] }
  | [], σ, h => by
      simp only [List.foldl_nil, update_eq_self, ← h]
      exact .refl
  | f :: stores, σ, h => by
      have hrest := stores_run p prod stores (σ := { σ with
        ring := { σ.ring with
          slots := update σ.ring.slots (σ.ring.slotOf prod)
            (f (σ.ring.slots (σ.ring.slotOf prod))) }
        producer := .storing p prod stores }) rfl
      simp only [AmpRing.slotOf, update_self, update_idem] at hrest
      exact .head (.emitStore h) hrest

/-- **A call of `amp_ring_emit`** is a run of the producer alone. -/
theorem emit_call (p : Payload) (h : σ.producer = .idle) :
    ∃ σ₁, Run .producer σ σ₁ ∧ Step σ₁ (.emitReturns (ampRingEmit σ.ring p.1 p.2).1) (σ.emit p) := by
  have hload : Run .producer σ { σ with producer := .loaded p σ.ring.prod } :=
    .single (.emitLoad p h)
  unfold System.emit
  by_cases hfull : σ.ring.capacity ≤ σ.ring.prod - σ.ring.cons
  · have hret : ampRingEmit σ.ring p.1 p.2 = (0, σ.ring) := if_pos hfull
    rw [hret, if_neg Int.zero_ne_one]
    exact ⟨_, hload, .emitFull rfl hfull⟩
  · have hret : ampRingEmit σ.ring p.1 p.2 = (1, _) := if_neg hfull
    rw [hret, if_pos rfl]
    have hroom := hload.tail (.emitRoom rfl hfull)
    exact ⟨_, hroom.trans (stores_run p σ.ring.prod (emitStores p) rfl), .emitPublish rfl⟩

/-- One round of the collecting loop. -/
theorem drainRound_run {kind : DrainKind} {n : Nat}
    (h : σ.consumer = .looping kind (n + 1) cons got) (hne : cons ≠ σ.ring.prod) :
    Run .consumer σ { σ with
      consumer := .looping kind n (cons + 1#32)
        (got ++ [payload (σ.ring.slots (σ.ring.slotOf cons))]) } :=
  .tail (.tail (.single (.drainMore h hne)) (.drainTime rfl)) (.drainValue rfl)

/-- The collecting loop is a run of the consumer alone. -/
theorem drainLoop_run (kind : DrainKind) :
    ∀ (n : Nat) (cons : BitVec 32) (got : List Payload) {σ : System},
      σ.consumer = .looping kind n cons got →
      Run .consumer σ { σ with
        consumer := .building kind (drainLoop σ.ring n cons).2
          (got ++ (drainLoop σ.ring n cons).1.map payload) }
  | 0, cons, got, σ, h => by
      simp only [drainLoop, List.map_nil, List.append_nil]
      exact .single (.drainStop h (.inl rfl))
  | n + 1, cons, got, σ, h => by
      by_cases hstop : cons = σ.ring.prod
      · simp only [drainLoop, if_pos hstop, List.map_nil, List.append_nil]
        exact .single (.drainStop h (.inr hstop))
      · have hrest := (drainRound_run h hstop).trans (drainLoop_run kind n _ _ rfl)
        simpa only [drainLoop, if_neg hstop, List.map_cons, List.append_assoc,
          List.singleton_append] using hrest

/-- A drain up to its build. -/
theorem drain_run (kind : DrainKind) (h : σ.consumer = .idle) (hm : σ.ring.magic = ampRingMagic) :
    Run .consumer σ { σ with
      consumer := .building kind (drainLoop σ.ring kind.limit σ.ring.cons).2
        ((drainLoop σ.ring kind.limit σ.ring.cons).1.map payload) } :=
  .head (.drainBegin kind h hm) (drainLoop_run kind _ _ [] rfl)

/-- **A call of `amp_ring_drain_logs`** is a run of the consumer alone; the records it collected
count as handed over unless it returns an error. -/
theorem drainLogs_call (otlpLogsBuild : List OtlpLogRecord → Int) (max : Nat)
    (h : σ.consumer = .idle) :
    ∃ σ₁, Run .consumer σ σ₁ ∧
      Step σ₁ (.drainReturns (ampRingDrainLogs σ.ring otlpLogsBuild max).ret)
        (σ.drain (drainLimit max) (ampRingDrainLogs σ.ring otlpLogsBuild max)) := by
  unfold System.drain
  have hneg : (-1 : Int) < 0 := by decide
  by_cases hm : σ.ring.magic ≠ ampRingMagic
  · have heq : ampRingDrainLogs σ.ring otlpLogsBuild max = ⟨-1, 0, σ.ring⟩ := if_pos hm
    rw [heq, if_pos hneg, ← h]
    exact ⟨σ, .refl, .drainRefuse h hm⟩
  have hrun := drain_run (.logs max) h (not_not.mp hm)
  simp only [DrainKind.limit] at hrun
  rcases hloop : drainLoop σ.ring (drainLimit max) σ.ring.cons with ⟨recs, cons⟩
  rw [hloop] at hrun
  by_cases hn : recs.length = 0
  · have heq : ampRingDrainLogs σ.ring otlpLogsBuild max = ⟨0, 0, σ.ring⟩ := by
      simp only [ampRingDrainLogs, if_neg hm, hloop, if_pos hn]
    obtain rfl : recs = [] := List.length_eq_zero_iff.mp hn
    rw [heq, if_neg (Int.lt_irrefl 0), List.map_nil, List.append_nil]
    exact ⟨_, hrun, .drainEmpty rfl (by simp [builds])⟩
  have hb : builds (.logs max) (recs.map payload) := by simpa [builds] using hn
  by_cases hlen : otlpLogsBuild (recs.map logRecord) < 0
  · have heq : ampRingDrainLogs σ.ring otlpLogsBuild max = ⟨-1, 0, σ.ring⟩ := by
      simp only [ampRingDrainLogs, if_neg hm, hloop, if_neg hn, if_pos hlen]
    rw [heq, if_pos hneg]
    exact ⟨_, hrun, .drainFail rfl hb⟩
  · have heq : ampRingDrainLogs σ.ring otlpLogsBuild max =
        ⟨otlpLogsBuild (recs.map logRecord), recs.length, { σ.ring with cons := cons }⟩ := by
      simp only [ampRingDrainLogs, if_neg hm, hloop, if_neg hn, if_neg hlen]
    rw [heq, if_neg hlen]
    exact ⟨_, hrun, .drainCommit rfl hb (Int.not_lt.mp hlen)⟩

/-- A full ring of two. -/
def fullRing : System :=
  ((System.init ⟨0, 0, 0, 0, 0, 0, fun _ => emitted 0 0⟩ 2#32).emit (5, 7)).emit (6, 8)

theorem drainLogs_call_full :
    ∃ σ₁ σ₂, Run .consumer fullRing σ₁ ∧ Step σ₁ (.drainReturns 2) σ₂ ∧
      σ₂.handed = [(5, 7), (6, 8)] ∧ unread σ₂.ring = [] := by
  obtain ⟨σ₁, hrun, hstep⟩ := drainLogs_call (fun recs => recs.length) 0
    (rfl : fullRing.consumer = .idle)
  exact ⟨σ₁, _, hrun, hstep, rfl, rfl⟩

/-- **A call of `amp_ring_drain_trace`** is a run of the consumer alone. -/
theorem drainTrace_call (otlpTracesBuild : List Otlp.GenericSpan → Int) (req : Request)
    (seed : UInt64) (h : σ.consumer = .idle) :
    ∃ σ₁, Run .consumer σ σ₁ ∧
      Step σ₁ (.drainReturns (ampRingDrainTrace σ.ring otlpTracesBuild req seed).ret)
        (σ.drain ampDrainMax (ampRingDrainTrace σ.ring otlpTracesBuild req seed)) := by
  unfold System.drain
  have hneg : (-1 : Int) < 0 := by decide
  by_cases hm : σ.ring.magic ≠ ampRingMagic
  · have heq : ampRingDrainTrace σ.ring otlpTracesBuild req seed = ⟨-1, 0, σ.ring⟩ := if_pos hm
    rw [heq, if_pos hneg, ← h]
    exact ⟨σ, .refl, .drainRefuse h hm⟩
  have hrun := drain_run .trace h (not_not.mp hm)
  simp only [DrainKind.limit] at hrun
  rcases hloop : drainLoop σ.ring ampDrainMax σ.ring.cons with ⟨recs, cons⟩
  rw [hloop] at hrun
  by_cases hlen : otlpTracesBuild (requestSpan req :: recordSpans req seed recs) < 0
  · have heq : ampRingDrainTrace σ.ring otlpTracesBuild req seed = ⟨-1, 0, σ.ring⟩ := by
      simp only [ampRingDrainTrace, if_neg hm, hloop, if_pos hlen]
    rw [heq, if_pos hneg]
    exact ⟨_, hrun, .drainFail rfl trivial⟩
  · have heq : ampRingDrainTrace σ.ring otlpTracesBuild req seed =
        ⟨otlpTracesBuild (requestSpan req :: recordSpans req seed recs),
          recs.countP (inWindow req), { σ.ring with cons := cons }⟩ := by
      simp only [ampRingDrainTrace, if_neg hm, hloop, if_neg hlen]
    rw [heq, if_neg hlen]
    exact ⟨_, hrun, .drainCommit rfl trivial (Int.not_lt.mp hlen)⟩

/-- One record is inside the window and one is not; both are handed over. -/
theorem drainTrace_call_full :
    (ampRingDrainTrace fullRing.ring (fun spans => spans.length) ⟨[], [], 0, 5, none⟩ 0).count = 1 ∧
      ∃ σ₁ σ₂, Run .consumer fullRing σ₁ ∧ Step σ₁ (.drainReturns 3) σ₂ ∧
        σ₂.handed = [(5, 7), (6, 8)] ∧ unread σ₂.ring = [] := by
  obtain ⟨σ₁, hrun, hstep⟩ := drainTrace_call (fun spans => spans.length) ⟨[], [], 0, 5, none⟩ 0
    (rfl : fullRing.consumer = .idle)
  exact ⟨rfl, σ₁, _, hrun, hstep, rfl, rfl⟩

/-- A whole call is one of the interleavings. -/
theorem Run.steps {ev' : Event} {σ₁ σ₂ : System} (hrun : Run ev σ σ₁) (hstep : Step σ₁ ev' σ₂) :
    Steps σ σ₂ :=
  .tail (Relation.ReflTransGen.mono (fun _ _ h => ⟨_, h⟩) _ _ hrun) ⟨_, hstep⟩

end Calls

/-! ### The history -/

/-- **The event ring loses, repeats and reorders nothing.**  In every state that any interleaving
of emits and drains reaches, the records handed to successful drains followed by the unread ones
are the accepted ones; an emit returns 0 exactly when the ring holds `2 ^ k` unread records; and a
drain that fails has changed nothing. -/
theorem reachable_history {r : AmpRing} {k : Nat} {σ : System} (hk : k ≤ 31)
    (h : Reachable r (BitVec.ofNat 32 (2 ^ k)) σ) :
    σ.handed.map record ++ unread σ.ring = σ.accepted.map record ∧
    (∀ ret σ', Step σ (.emitReturns ret) σ' → (ret = 0 ↔ (unread σ.ring).length = 2 ^ k)) ∧
    (∀ ev σ', Step σ ev σ' → (ev = .consumer ∨ ∃ ret < 0, ev = .drainReturns ret) →
      σ'.ring = σ.ring ∧ σ'.accepted = σ.accepted ∧ σ'.handed = σ.handed) := by
  have hlt : 2 ^ k < 2 ^ 32 := Nat.pow_lt_pow_right (by decide) (by omega)
  have hcap : (BitVec.ofNat 32 (2 ^ k)).toNat = 2 ^ k := by
    rw [BitVec.toNat_ofNat, Nat.mod_eq_of_lt hlt]
  have hdvd : (BitVec.ofNat 32 (2 ^ k)).toNat ∣ 2 ^ 32 := by
    rw [hcap]; exact Nat.pow_dvd_pow 2 (by omega)
  obtain ⟨hi, heq⟩ := inv_of_reachable hdvd h
  refine ⟨hi.history, fun ret σ' hstep => ?_, fun ev σ' hstep hev => hstep.drain_reads hev⟩
  rw [hstep.emitReturns_iff hi, heq, hcap]

/-- Two emits fill a ring of two, the third is refused; the first drain fails, and the next one
takes a record. -/
theorem reachable_history_full :
    ∃ σ₁ σ₂ σ₃ σ₄ σ, Step σ₁ (.emitReturns 0) σ₂ ∧ Steps σ₂ σ₃ ∧ Step σ₃ (.drainReturns (-1)) σ₄ ∧
      Steps σ₄ σ ∧ Reachable ⟨0, 0, 0, 0, 0, 0, fun _ => emitted 0 0⟩ (BitVec.ofNat 32 (2 ^ 1)) σ ∧
      σ.accepted = [(5, 7), (6, 8)] ∧ σ.handed = [(5, 7)] ∧
      σ.handed.map record ++ unread σ.ring = σ.accepted.map record ∧
      (∀ ret σ', Step σ (.emitReturns ret) σ' → (ret = 0 ↔ (unread σ.ring).length = 2 ^ 1)) ∧
      (∀ ev σ', Step σ ev σ' → (ev = .consumer ∨ ∃ ret < 0, ev = .drainReturns ret) →
        σ'.ring = σ.ring ∧ σ'.accepted = σ.accepted ∧ σ'.handed = σ.handed) := by
  let σ₀ := System.init ⟨0, 0, 0, 0, 0, 0, fun _ => emitted 0 0⟩ 2#32
  obtain ⟨_, hrun₁, hemit₁⟩ := emit_call (5, 7) (rfl : σ₀.producer = .idle)
  obtain ⟨_, hrun₂, hemit₂⟩ := emit_call (6, 8) (rfl : (σ₀.emit (5, 7)).producer = .idle)
  obtain ⟨_, hrun₃, hrefused⟩ := emit_call (9, 9) (rfl : fullRing.producer = .idle)
  have hb : builds (.logs 1) [((5, 7) : Payload)] := List.cons_ne_nil _ _
  have hrun₄ := drain_run (.logs 1) (rfl : (fullRing.emit (9, 9)).consumer = .idle) rfl
  have hfailed := hrun₄.steps (.drainFail rfl hb)
  have hdrain := hrun₄.steps (.drainCommit rfl hb Int.one_nonneg)
  have hfull : Reachable ⟨0, 0, 0, 0, 0, 0, fun _ => emitted 0 0⟩ 2#32 _ :=
    (hrun₁.steps hemit₁).trans (hrun₂.steps hemit₂)
  -- The failed drain leaves the state it found, so the next one runs as it did.
  have hreach := ((hfull.trans (hrun₃.steps hrefused)).trans hfailed).trans hdrain
  exact ⟨_, _, _, _, _, hrefused, Relation.ReflTransGen.mono (fun _ _ h => ⟨_, h⟩) _ _ hrun₄,
    .drainFail rfl hb, hdrain, hreach, rfl, rfl, reachable_history (by decide) hreach⟩

end SpinelEbpf.Amp.EventRing

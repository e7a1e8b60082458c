import Mathlib

/-!
# Latency — the guard of the request latency

`req_start` runs when a socket sends and `emit_l7` when data has come back.  They share a map from
sockets to the send that is waiting for its answer.  A second send before an answer makes the
latency meaningless, so it marks the socket, and a marked socket stays marked: its receives only
count down.

An entry of the map says what happened on its socket so far (`Tells`): the one send since the last
receive, or that sends have overlapped.  `l7_guard` is the whole run.
-/

namespace SpinelEbpf.Latency

/-- Who sends. -/
structure Task where
  pid : UInt32
  comm : List UInt8
  cgid : UInt64
  deriving DecidableEq, Repr

/-- `struct req_state`. -/
structure ReqState where
  startNs : UInt64
  task : Task
  outstanding : UInt32
  mux : UInt32
  deriving DecidableEq, Repr

/-- The other end of a socket, as the record has it. -/
structure Peer where
  daddr : UInt32
  dport : UInt16
  family : UInt16
  deriving DecidableEq, Repr

/-- `struct l7_event`. -/
structure L7Event where
  type : UInt16
  version : UInt16
  reserved : UInt32
  timestamp : UInt64
  task : Task
  peer : Peer
  startKtime : UInt64
  durationNs : UInt64
  deriving DecidableEq, Repr

/-- `req_start`, a hash map of the kernel keyed by the socket's address. -/
abbrev ReqMap := AList fun _ : UInt64 => ReqState

/-- The capacity of `req_start`. -/
def maxEntries : Nat := 65536

/-- One run of a builtin, with what it reads: the clock, the current task, whether the ring has
room, and the socket's fields. -/
inductive Event where
  | send (sk : UInt64) (now : UInt64) (task : Task)
  | recv (sk : UInt64) (reserved : Bool) (timestamp now : UInt64) (peer : Peer)
  deriving DecidableEq, Repr

structure State where
  reqStart : ReqMap
  records : List L7Event
  lost : Nat

def State.init : State := ⟨∅, [], 0⟩

/-- An update that a full map refuses. -/
def update (m : ReqMap) (sk : UInt64) (r : ReqState) : ReqMap :=
  if (m.lookup sk).isSome = true ∨ m.entries.length < maxEntries then m.insert sk r else m

/-- `req_start`. -/
def reqStart (s : State) (sk now : UInt64) (task : Task) : State :=
  match s.reqStart.lookup sk with
  | some r => { s with reqStart := s.reqStart.insert sk { r with outstanding := r.outstanding + 1
                                                                 mux := 1 } }
  | none   => { s with reqStart := update s.reqStart sk ⟨now, task, 1, 0⟩ }

/-- The record of an answered send. -/
def answered (r : ReqState) (timestamp now : UInt64) (peer : Peer) : L7Event where
  type := 0x0100
  version := 1
  reserved := 0
  timestamp := timestamp
  task := r.task
  peer := peer
  startKtime := r.startNs
  durationNs := now - r.startNs

/-- `emit_l7`. -/
def emitL7 (s : State) (sk : UInt64) (reserved : Bool) (timestamp now : UInt64) (peer : Peer) :
    State :=
  match s.reqStart.lookup sk with
  | none   => s
  | some r =>
      if r.mux ≠ 0 then
        if r.outstanding > 0 then
          { s with reqStart := s.reqStart.insert sk { r with outstanding := r.outstanding - 1 } }
        else s
      else if reserved then
        { s with records := s.records ++ [answered r timestamp now peer]
                 reqStart := s.reqStart.erase sk }
      else { s with lost := s.lost + 1, reqStart := s.reqStart.erase sk }

def step (s : State) : Event → State
  | .send sk now task => reqStart s sk now task
  | .recv sk reserved timestamp now peer => emitL7 s sk reserved timestamp now peer

def run (es : List Event) : State := es.foldl step .init

theorem run_snoc (es : List Event) (e : Event) : run (es ++ [e]) = step (run es) e := by
  rw [run, run, List.foldl_append]
  rfl

/-! ### What happened on a socket -/

def isRecv (sk : UInt64) : Event → Bool
  | .recv sk' .. => sk' = sk
  | _ => false

/-- The time of a send on `sk`. -/
def sendTime (sk : UInt64) : Event → Option UInt64
  | .send sk' now _ => if sk' = sk then some now else none
  | _ => none

/-- The sends on `sk` since the last receive on it, or since the start, the latest first. -/
def waiting (sk : UInt64) (es : List Event) : List UInt64 :=
  (es.reverse.takeWhile fun e => !isRecv sk e).filterMap (sendTime sk)

/-- At some point two sends on `sk` had happened without a receive between them. -/
def Overlapped (sk : UInt64) (es : List Event) : Prop :=
  ∃ past, past <+: es ∧ 2 ≤ (waiting sk past).length

/-- The step is neither refused by the map nor by the ring. -/
def Accepted (s : State) : Event → Prop
  | .send sk _ _      => (s.reqStart.lookup sk).isSome = true ∨ s.reqStart.entries.length < maxEntries
  | .recv _ reserved .. => reserved = true

/-- Every step of the run is accepted. -/
def Smooth (es : List Event) : Prop :=
  ∀ past e rest, es = past ++ e :: rest → Accepted (run past) e

theorem waiting_snoc (sk : UInt64) (es : List Event) (e : Event) :
    waiting sk (es ++ [e]) =
      if isRecv sk e then [] else (sendTime sk e).toList ++ waiting sk es := by
  unfold waiting
  rw [List.reverse_append, List.reverse_singleton, List.singleton_append, List.takeWhile_cons]
  cases hrecv : isRecv sk e with
  | true => rfl
  | false =>
      rw [Bool.not_false, if_pos rfl, if_neg Bool.false_ne_true, List.filterMap_cons]
      cases sendTime sk e <;> rfl

theorem overlapped_snoc (sk : UInt64) (es : List Event) (e : Event) :
    Overlapped sk (es ++ [e]) ↔ Overlapped sk es ∨ 2 ≤ (waiting sk (es ++ [e])).length := by
  constructor
  · rintro ⟨past, hpast, htwo⟩
    rcases List.prefix_concat_iff.mp hpast with rfl | hpast
    · exact .inr htwo
    · exact .inl ⟨past, hpast, htwo⟩
  · rintro (⟨past, hpast, htwo⟩ | htwo)
    · exact ⟨past, hpast.trans (List.prefix_append es [e]), htwo⟩
    · exact ⟨es ++ [e], List.prefix_refl _, htwo⟩

variable {es : List Event}

/-- Sends that have overlapped stay so. -/
theorem Overlapped.append {sk : UInt64} (h : Overlapped sk es) (fs : List Event) :
    Overlapped sk (es ++ fs) := by
  obtain ⟨past, hpast, htwo⟩ := h
  exact ⟨past, hpast.trans (List.prefix_append es fs), htwo⟩

theorem smooth_snoc {e : Event} :
    Smooth (es ++ [e]) ↔ Smooth es ∧ Accepted (run es) e := by
  constructor
  · intro h
    refine ⟨fun past e' rest hes => h past e' (rest ++ [e]) ?_, h es e [] rfl⟩
    rw [hes, List.append_assoc, List.cons_append]
  · rintro ⟨hes, he⟩ past e' rest heq
    rcases List.eq_nil_or_concat rest with rfl | ⟨rest, f, rfl⟩
    · obtain ⟨rfl, hlast⟩ := List.append_inj' heq rfl
      rwa [← (List.cons.inj hlast).1]
    · have heq' : es ++ [e] = (past ++ e' :: rest) ++ [f] := by
        rw [heq, List.concat_eq_append, List.append_assoc, List.cons_append]
      exact hes past e' rest (List.append_inj' heq' rfl).1

/-! ### What the entry tells -/

/-- What the entry of a socket says of its past. -/
def Tells (sk : UInt64) (es : List Event) : Option ReqState → Prop
  | none   => waiting sk es = [] ∧ ¬ Overlapped sk es
  | some r => if r.mux = 0 then waiting sk es = [r.startNs] ∧ ¬ Overlapped sk es else Overlapped sk es

section

variable {sk : UInt64} {e : Event} {s : State} {r : ReqState}

theorem tells_clear (h : r.mux = 0) :
    Tells sk es (some r) ↔ waiting sk es = [r.startNs] ∧ ¬ Overlapped sk es := by
  rw [Tells, if_pos h]

theorem tells_marked (h : r.mux ≠ 0) : Tells sk es (some r) ↔ Overlapped sk es := by
  rw [Tells, if_neg h]

/-- The socket of an event. -/
def Event.sock : Event → UInt64
  | .send sk ..  => sk
  | .recv sk ..  => sk

/-- An event on another socket does not touch the entry. -/
theorem lookup_step_other (h : e.sock ≠ sk) :
    (step s e).reqStart.lookup sk = s.reqStart.lookup sk := by
  cases e with
  | send sk' now task =>
      have hne : sk ≠ sk' := Ne.symm h
      unfold step reqStart
      dsimp only
      split
      · exact AList.lookup_insert_ne hne
      · dsimp only [update]
        split
        · exact AList.lookup_insert_ne hne
        · rfl
  | recv sk' reserved timestamp now peer =>
      have hne : sk ≠ sk' := Ne.symm h
      unfold step emitL7
      dsimp only
      split
      · rfl
      split
      · split
        · exact AList.lookup_insert_ne hne
        · rfl
      · split
        · exact AList.lookup_erase_ne hne
        · exact AList.lookup_erase_ne hne

/-- Nor does it change the past of the socket. -/
theorem waiting_snoc_other (h : e.sock ≠ sk) : waiting sk (es ++ [e]) = waiting sk es := by
  rw [waiting_snoc]
  cases e with
  | send sk' now task =>
      have hne : ¬ sk' = sk := h
      rw [isRecv, if_neg Bool.false_ne_true, sendTime, if_neg hne]
      · rfl
      · intros
        contradiction
  | recv sk' reserved timestamp now peer =>
      have hrecv : isRecv sk (.recv sk' reserved timestamp now peer) = false := decide_eq_false h
      rw [hrecv, if_neg Bool.false_ne_true]
      rfl

theorem overlapped_snoc_other (h : e.sock ≠ sk) : Overlapped sk (es ++ [e]) ↔ Overlapped sk es := by
  rw [overlapped_snoc, waiting_snoc_other h, or_iff_left_iff_imp]
  exact fun htwo => ⟨es, List.prefix_refl es, htwo⟩

theorem Tells.other {r : Option ReqState} (h : Tells sk es r) (hne : e.sock ≠ sk) :
    Tells sk (es ++ [e]) r := by
  cases r with
  | none =>
      exact ⟨(waiting_snoc_other hne).trans h.1, fun ho => h.2 ((overlapped_snoc_other hne).mp ho)⟩
  | some r =>
      unfold Tells at h ⊢
      rwa [waiting_snoc_other hne, overlapped_snoc_other hne]

/-! ### Sends -/

theorem waiting_send (now : UInt64) (task : Task) :
    waiting sk (es ++ [.send sk now task]) = now :: waiting sk es := by
  rw [waiting_snoc, sendTime, if_pos rfl]
  rfl

/-- A send notes its time, or that it overlaps. -/
theorem Tells.send (h : Tells sk es (s.reqStart.lookup sk)) {now : UInt64} {task : Task}
    (hacc : Accepted s (.send sk now task)) :
    Tells sk (es ++ [.send sk now task]) ((reqStart s sk now task).reqStart.lookup sk) := by
  unfold reqStart
  cases hr : s.reqStart.lookup sk with
  | none =>
      rw [hr] at h
      obtain ⟨hwait, hover⟩ := h
      have hone : waiting sk (es ++ [.send sk now task]) = [now] := by rw [waiting_send, hwait]
      dsimp only
      have hroom : (s.reqStart.lookup sk).isSome = true ∨ s.reqStart.entries.length < maxEntries :=
        hacc
      rw [update, if_pos hroom, AList.lookup_insert, tells_clear rfl]
      refine ⟨hone, fun ho => ?_⟩
      rw [overlapped_snoc, hone] at ho
      exact ho.elim hover (by simp)
  | some r =>
      rw [hr] at h
      dsimp only
      rw [AList.lookup_insert, tells_marked (show (1 : UInt32) ≠ 0 by decide)]
      by_cases hmux : r.mux = 0
      · refine (overlapped_snoc ..).mpr (.inr ?_)
        rw [waiting_send, ((tells_clear hmux).mp h).1]
        exact le_refl 2
      · exact ((tells_marked hmux).mp h).append _

/-! ### Receives -/

theorem waiting_recv (reserved : Bool) (timestamp now : UInt64) (peer : Peer) :
    waiting sk (es ++ [.recv sk reserved timestamp now peer]) = [] := by
  have hrecv : isRecv sk (.recv sk reserved timestamp now peer) = true := decide_eq_true rfl
  rw [waiting_snoc, hrecv, if_pos rfl]

theorem not_overlapped_recv {reserved : Bool} {timestamp now : UInt64} {peer : Peer}
    (h : ¬ Overlapped sk es) :
    ¬ Overlapped sk (es ++ [.recv sk reserved timestamp now peer]) := by
  rw [overlapped_snoc, waiting_recv]
  exact fun ho => ho.elim h (by simp)

/-- A receive answers the one send, or leaves the mark. -/
theorem Tells.recv (h : Tells sk es (s.reqStart.lookup sk)) (reserved : Bool)
    (timestamp now : UInt64) (peer : Peer) :
    Tells sk (es ++ [.recv sk reserved timestamp now peer])
      ((emitL7 s sk reserved timestamp now peer).reqStart.lookup sk) := by
  unfold emitL7
  cases hr : s.reqStart.lookup sk with
  | none =>
      rw [hr] at h
      dsimp only
      rw [hr]
      exact ⟨waiting_recv .., not_overlapped_recv h.2⟩
  | some r =>
      rw [hr] at h
      dsimp only
      by_cases hmux : r.mux = 0
      · have hover := ((tells_clear hmux).mp h).2
        rw [if_neg (not_not.mpr hmux)]
        split <;> dsimp only <;> rw [AList.lookup_erase] <;>
          exact ⟨waiting_recv .., not_overlapped_recv hover⟩
      · have hover := (tells_marked hmux).mp h
        rw [if_pos hmux]
        split
        · dsimp only
          rw [AList.lookup_insert]
          exact (tells_marked hmux).mpr (hover.append _)
        · rw [hr]
          exact (tells_marked hmux).mpr (hover.append _)

end

/-- **The entry of every socket tells its past**, in every run that no map and no ring refuses. -/
theorem tells_run (h : Smooth es) (sk : UInt64) :
    Tells sk es ((run es).reqStart.lookup sk) := by
  induction es using List.reverseRecOn with
  | nil =>
      refine ⟨rfl, ?_⟩
      rintro ⟨past, hpast, htwo⟩
      rw [List.prefix_nil.mp hpast] at htwo
      exact absurd htwo (show ¬ 2 ≤ 0 by decide)
  | append_singleton es e ih =>
      obtain ⟨hes, he⟩ := smooth_snoc.mp h
      have ih := ih hes
      rw [run_snoc]
      by_cases hsk : e.sock = sk
      · cases e with
        | send sk' now task =>
            obtain rfl : sk' = sk := hsk
            exact ih.send he
        | recv sk' reserved timestamp now peer =>
            obtain rfl : sk' = sk := hsk
            exact ih.recv reserved timestamp now peer
      · rw [lookup_step_other hsk]
        exact ih.other hsk

/-- A receive on a socket without an entry, or with a marked one. -/
theorem records_silent {s : State} {sk : UInt64}
    (h : ∀ r, s.reqStart.lookup sk = some r → r.mux ≠ 0) (reserved : Bool) (timestamp now : UInt64)
    (peer : Peer) : (emitL7 s sk reserved timestamp now peer).records = s.records := by
  unfold emitL7
  cases hr : s.reqStart.lookup sk with
  | none => rfl
  | some r =>
      dsimp only
      rw [if_pos (h r hr)]
      split <;> rfl

/-- **The latency guard.**  Take any run in which no map and no ring refuses a step, and a receive
on `sk` at its end.  If exactly one send has happened on `sk` since the receive before, or since the
start, and at no point two sends without a receive between them, then the receive emits one record,
whose start is the time of that send and whose duration is the receive's time minus it; otherwise it
emits none.  In particular none is emitted once two sends have overlapped. -/
theorem l7_guard (es : List Event) (sk timestamp now : UInt64) (peer : Peer)
    (h : Smooth (es ++ [.recv sk true timestamp now peer])) :
    (∀ t, waiting sk es = [t] → ¬ Overlapped sk es →
      ∃ r, (run (es ++ [.recv sk true timestamp now peer])).records = (run es).records ++ [r] ∧
        r.startKtime = t ∧ r.durationNs = now - t) ∧
    (((waiting sk es).length ≠ 1 ∨ Overlapped sk es) →
      (run (es ++ [.recv sk true timestamp now peer])).records = (run es).records) ∧
    (∀ past later, es = past ++ later → Overlapped sk past →
      (run (es ++ [.recv sk true timestamp now peer])).records = (run es).records) := by
  have htells := tells_run (smooth_snoc.mp h).1 sk
  have hsilent : ((waiting sk es).length ≠ 1 ∨ Overlapped sk es) →
      (run (es ++ [.recv sk true timestamp now peer])).records = (run es).records := by
    intro hcond
    rw [run_snoc]
    refine records_silent (fun r hr hmux => ?_) true timestamp now peer
    rw [hr, tells_clear hmux] at htells
    rcases hcond with hlen | hover
    · exact hlen (by rw [htells.1]; rfl)
    · exact htells.2 hover
  refine ⟨fun t hwait hover => ?_, hsilent, ?_⟩
  · rw [run_snoc]
    show ∃ r, (emitL7 (run es) sk true timestamp now peer).records = _ ∧ _
    unfold emitL7
    cases hr : (run es).reqStart.lookup sk with
    | none =>
        rw [hr] at htells
        rw [htells.1] at hwait
        cases hwait
    | some r =>
        rw [hr] at htells
        have hmux : r.mux = 0 := by
          by_contra hmux
          exact hover ((tells_marked hmux).mp htells)
        obtain ⟨hstart, -⟩ := (tells_clear hmux).mp htells
        rw [hwait] at hstart
        obtain ⟨rfl, -⟩ := List.cons.inj hstart
        dsimp only
        rw [if_neg (not_not.mpr hmux)]
        exact ⟨answered r timestamp now peer, rfl, rfl, rfl⟩
  · rintro past later rfl hover
    exact hsilent (.inr (hover.append later))

/-- A send at 10, a send on another socket, and the answer at 25. -/
theorem l7_guard_answer :
    ∃ r, (run [.send 7 10 ⟨1, [], 0⟩, .send 8 12 ⟨1, [], 0⟩, .recv 7 true 24 25 ⟨0, 0, 0⟩]).records =
        [r] ∧ r.startKtime = 10 ∧ r.durationNs = 15 := by
  have hsmooth : Smooth ([.send 7 10 ⟨1, [], 0⟩, .send 8 12 ⟨1, [], 0⟩] ++
      [.recv 7 true 24 25 ⟨0, 0, 0⟩]) := by
    refine smooth_snoc.mpr ⟨?_, rfl⟩
    refine (@smooth_snoc [.send 7 10 ⟨1, [], 0⟩] _).mpr ⟨?_, .inr (by decide)⟩
    refine (@smooth_snoc [] _).mpr ⟨?_, .inr (by decide)⟩
    intro past e rest hnil
    cases past <;> cases hnil
  refine (l7_guard _ 7 24 25 ⟨0, 0, 0⟩ hsmooth).1 10 (by decide) ?_
  rintro ⟨past, hpast, htwo⟩
  have hall : ∀ past ∈ List.inits [Event.send 7 10 ⟨1, [], 0⟩, .send 8 12 ⟨1, [], 0⟩],
      ¬ 2 ≤ (waiting 7 past).length := by decide
  exact hall past ((List.mem_inits ..).mpr hpast) htwo

end SpinelEbpf.Latency

import SpinelEbpf.Otlp.Span

/-!
# Otlp — spans from a method call tree

`otlp_traces_assemble` turns a stream of enter and exit events into spans, with one stack of pending
calls for each thread.  There are slots for 64 threads and a stack holds 64 calls; an event that
finds no slot, and an enter that finds its stack full, is passed over.

The slots are a static array: a slot is taken with whatever an earlier call of the function left in
it, but for its thread id and depth (`Assembly.start`).
-/

namespace SpinelEbpf.Otlp.Traces
open Otlp

/-- `OTLP_TRACE_MAX_TIDS`. -/
def maxTids : Nat := 64

/-- `OTLP_TRACE_MAX_DEPTH`. -/
def maxDepth : Nat := 64

/-- `otlp_span_event_t`; `kind` is 0 for an enter. -/
structure SpanEvent where
  kind : Int32
  idx : Int32
  ktimeNs : UInt64
  tid : UInt64
  deriving DecidableEq, Repr

/-- `otlp_span_t`. -/
structure Span where
  traceId : List UInt8
  spanId : List UInt8
  parentSpanId : List UInt8
  hasParent : Bool
  methodIdx : Int32
  startUnixNs : UInt64
  endUnixNs : UInt64
  deriving DecidableEq, Repr

/-- `pending_t`. -/
structure Pending where
  spanId : List UInt8
  parentSpanId : List UInt8
  hasParent : Bool
  traceId : List UInt8
  start : UInt64
  idx : Int32
  deriving DecidableEq, Repr

/-- `tidslot_t`. -/
structure TidSlot where
  tid : UInt64
  depth : Nat
  traceId : List UInt8
  stack : Nat → Pending

/-- The state of the loop; `nout` is the length of `out`. -/
structure Assembly where
  slots : Nat → TidSlot
  nslots : Nat
  rng : UInt64
  out : List Span

/-- The state before the loop. -/
def Assembly.start (slots : Nat → TidSlot) (seed : UInt64) : Assembly := ⟨slots, 0, seed, []⟩

/-- `unix_ns` of an event. -/
def unixNs (off : Int64) (e : SpanEvent) : UInt64 := e.ktimeNs + off.toUInt64

/-- The slot of a thread, created if need be. -/
def Assembly.locate (st : Assembly) (tid : UInt64) : Option (Nat × Assembly) :=
  match (List.range st.nslots).find? fun k => (st.slots k).tid = tid with
  | some k => some (k, st)
  | none   =>
      if st.nslots ≥ maxTids then none
      else
        let s := { st.slots st.nslots with tid := tid, depth := 0 }
        some (st.nslots, { st with slots := Function.update st.slots st.nslots s
                                   nslots := st.nslots + 1 })

/-- The trace of a slot at an enter, and the advanced seed: a new one for an outermost call. -/
def TidSlot.trace (s : TidSlot) (rng : UInt64) : List UInt8 × UInt64 :=
  if s.depth = 0 then
    let (hi, rng) := splitmix64 rng
    let (lo, rng) := splitmix64 rng
    (putU64Be hi ++ putU64Be lo, rng)
  else (s.traceId, rng)

/-- The call that an enter puts on a stack, and the advanced seed. -/
def TidSlot.pend (s : TidSlot) (off : Int64) (e : SpanEvent) (rng : UInt64) : Pending × UInt64 :=
  let (traceId, rng) := s.trace rng
  let (id, rng) := splitmix64 rng
  let hasParent := decide (s.depth > 0)
  (⟨putU64Be id,
    if hasParent then (s.stack (s.depth - 1)).spanId else (s.stack s.depth).parentSpanId,
    hasParent, traceId, unixNs off e, e.idx⟩, rng)

/-- The span of a call that is taken from a stack. -/
def Pending.close (p : Pending) (off : Int64) (e : SpanEvent) : Span where
  traceId := p.traceId
  spanId := p.spanId
  parentSpanId := if p.hasParent then p.parentSpanId else List.replicate 8 0
  hasParent := p.hasParent
  methodIdx := p.idx
  startUnixNs := p.start
  endUnixNs := unixNs off e

/-- An enter, in slot `k`. -/
def Assembly.enter (off : Int64) (e : SpanEvent) (k : Nat) (st : Assembly) : Assembly :=
  let s := st.slots k
  if s.depth ≥ maxDepth then st
  else
    let (p, rng) := s.pend off e st.rng
    let s := { s with traceId := p.traceId, stack := Function.update s.stack s.depth p
                      depth := s.depth + 1 }
    { st with slots := Function.update st.slots k s, rng := rng }

/-- An exit, in slot `k`. -/
def Assembly.exit (off : Int64) (maxOut : Nat) (e : SpanEvent) (k : Nat) (st : Assembly) :
    Assembly :=
  let s := st.slots k
  if s.depth = 0 then st
  else
    let st := { st with slots := Function.update st.slots k { s with depth := s.depth - 1 } }
    if st.out.length ≥ maxOut then st
    else { st with out := st.out ++ [(s.stack (s.depth - 1)).close off e] }

/-- One event. -/
def Assembly.step (off : Int64) (maxOut : Nat) (st : Assembly) (e : SpanEvent) : Assembly :=
  match st.locate e.tid with
  | none => st
  | some (k, st) => if e.kind = 0 then st.enter off e k else st.exit off maxOut e k

/-- `otlp_traces_assemble`: the spans written to `out`. -/
def otlpTracesAssemble (slots : Nat → TidSlot) (ev : List SpanEvent) (off : Int64) (seed : UInt64)
    (maxOut : Nat) : List Span :=
  (ev.foldl (Assembly.step off maxOut) (.start slots seed)).out

/-! ### The calls of a stream

A stream is taken newest event first, so that the events before an event are the rest of the list
and their number is its position.
-/

/-- A call that is over: the positions of its enter and its exit, and the calls around it,
innermost first. -/
structure Call where
  enter : Nat
  around : List Nat
  exit : Nat
  deriving DecidableEq, Repr

/-- The calls of thread `tid` that are open, innermost first, by the position of their enter. -/
def openCalls (tid : UInt64) : List SpanEvent → List Nat
  | []        => []
  | e :: past =>
      if e.tid ≠ tid then openCalls tid past
      else if e.kind = 0 then past.length :: openCalls tid past
      else (openCalls tid past).tail

/-- The call that event `e` closes, after `past`. -/
def closes (e : SpanEvent) (past : List SpanEvent) : List Call :=
  if e.kind = 0 then []
  else
    match openCalls e.tid past with
    | [] => []
    | call :: around => [⟨call, around, past.length⟩]

/-- The calls that are over, in the order of their exits. -/
def closedCalls : List SpanEvent → List Call
  | []        => []
  | e :: past => closedCalls past ++ closes e past

/-- The loop, newest event first. -/
def assembled (slots : Nat → TidSlot) (off : Int64) (seed : UInt64) (maxOut : Nat) :
    List SpanEvent → Assembly
  | []        => .start slots seed
  | e :: past => (assembled slots off seed maxOut past).step off maxOut e

/-- What event `e` puts on a stack in state `st`. -/
def Assembly.pending (off : Int64) (st : Assembly) (e : SpanEvent) : Option Pending :=
  match st.locate e.tid with
  | none => none
  | some (k, st) =>
      if e.kind = 0 ∧ (st.slots k).depth < maxDepth then some ((st.slots k).pend off e st.rng).1
      else none

/-- What the enter at position `i` was given. -/
def given (slots : Nat → TidSlot) (off : Int64) (seed : UInt64) (maxOut : Nat) :
    List SpanEvent → Nat → Option Pending
  | [], _        => none
  | e :: past, i =>
      if i = past.length then (assembled slots off seed maxOut past).pending off e
      else given slots off seed maxOut past i

/-- **The span of a call**: method and start come from its enter, the end from its exit, and the
span id is the one given to it; if it is nested in another call, that call is its parent and its
trace is the parent's. -/
def spanOf (ids : Nat → Option Pending) (off : Int64) (events : List SpanEvent) (c : Call) :
    Option Span := do
  let enter ← events[c.enter]?
  let exit ← events[c.exit]?
  let own ← ids c.enter
  match c.around with
  | [] => some ⟨own.traceId, own.spanId, List.replicate 8 0, false, enter.idx, unixNs off enter,
      unixNs off exit⟩
  | parent :: _ => do
      let parent ← ids parent
      some ⟨parent.traceId, own.spanId, parent.spanId, true, enter.idx, unixNs off enter,
        unixNs off exit⟩

end SpinelEbpf.Otlp.Traces

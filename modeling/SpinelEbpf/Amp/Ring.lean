import SpinelEbpf.Otlp.Span
import SpinelEbpf.Support.Spsc

/-!
# Amp — the event ring

`amp_ring.h` is the ring of records in the memory the two cores share: the real-time core emits,
the application core drains.  `amp_otlp.c` has the two drains, into OTLP logs and into the spans
of a request's trace; each collects up to 64 records, builds a payload from them and commits the
consumer index only when the build succeeded.

The functions here are the calls, each run to its end.  The two build functions of the OTLP
encoder are parameters: a call is given the length its build returns, negative for a failure.
-/

namespace SpinelEbpf.Amp
open Otlp

/-- `AMP_RING_MAGIC`. -/
def ampRingMagic : BitVec 32 := 0x474E5241#32

/-- `struct amp_evt_hdr`. -/
structure AmpEvtHdr where
  type : BitVec 16
  version : BitVec 16
  reserved : BitVec 32
  timestamp : UInt64
  deriving DecidableEq, Repr

/-- `struct amp_ring_rec`. -/
structure AmpRingRec where
  hdr : AmpEvtHdr
  value : Int64
  deriving DecidableEq, Repr

/-- `struct amp_ring`, with the record slots that follow it. -/
structure AmpRing where
  magic : BitVec 32
  version : BitVec 32
  capacity : BitVec 32
  recSize : BitVec 32
  prod : BitVec 32
  cons : BitVec 32
  slots : Nat → AmpRingRec

/-- `amp_ring_init`. -/
def ampRingInit (r : AmpRing) (capacity : BitVec 32) : AmpRing :=
  { r with magic := ampRingMagic, version := 1#32, capacity := capacity, recSize := 24#32,
           prod := 0#32, cons := 0#32 }

/-- The slot an index selects. -/
def AmpRing.slotOf (r : AmpRing) (index : BitVec 32) : Nat := index.toNat % r.capacity.toNat

/-- The record an emit of `value` at time `ts` leaves in its slot. -/
def emitted (ts : UInt64) (value : Int64) : AmpRingRec :=
  ⟨⟨0x0100#16, 1#16, 0#32, ts⟩, value⟩

/-- `amp_ring_emit`: the returned value and the ring after. -/
def ampRingEmit (r : AmpRing) (ts : UInt64) (value : Int64) : Int × AmpRing :=
  if r.capacity ≤ r.prod - r.cons then (0, r)
  else (1, { r with slots := Function.update r.slots (r.slotOf r.prod) (emitted ts value)
                    prod := r.prod + 1#32 })

/-- `AMP_DRAIN_MAX`. -/
def ampDrainMax : Nat := 64

/-- The collecting loop of both drains, for at most `n` more records from index `cons` on: the
records read, and the index where it stopped. -/
def drainLoop (r : AmpRing) : Nat → BitVec 32 → List AmpRingRec × BitVec 32
  | 0, cons => ([], cons)
  | n + 1, cons =>
      if cons = r.prod then ([], cons)
      else
        let (recs, stop) := drainLoop r n (cons + 1#32)
        (r.slots (r.slotOf cons) :: recs, stop)

/-! ### Draining into logs -/

/-- `otlp_log_record_t`; `bodyStr = none` is a null pointer. -/
structure OtlpLogRecord where
  timeUnixNs : UInt64
  severity : Int
  bodyIsStr : Bool
  bodyStr : Option String
  bodyInt : Int64
  eventName : String
  deriving DecidableEq, Repr

/-- The log record made of a ring record. -/
def logRecord (src : AmpRingRec) : OtlpLogRecord where
  timeUnixNs := src.hdr.timestamp
  severity := 0
  bodyIsStr := false
  bodyStr := none
  bodyInt := src.value
  eventName := "amp.emit"

/-- The most records a log drain takes when asked for `max`. -/
def drainLimit (max : Nat) : Nat := if max = 0 ∨ max > ampDrainMax then ampDrainMax else max

/-- What a drain returns: the length or an error, the count it reports, the ring after. -/
structure Drained where
  ret : Int
  count : Nat
  ring : AmpRing

/-- `amp_ring_drain_logs`. -/
def ampRingDrainLogs (r : AmpRing) (otlpLogsBuild : List OtlpLogRecord → Int) (max : Nat) :
    Drained :=
  if r.magic ≠ ampRingMagic then ⟨-1, 0, r⟩
  else
    let (recs, cons) := drainLoop r (drainLimit max) r.cons
    if recs.length = 0 then ⟨0, 0, r⟩
    else
      let len := otlpLogsBuild (recs.map logRecord)
      if len < 0 then ⟨-1, 0, r⟩ else ⟨len, recs.length, { r with cons := cons }⟩

/-! ### Draining into a trace -/

/-- The request a trace drain is given. -/
structure Request where
  traceId : List UInt8
  spanId : List UInt8
  startNs : UInt64
  endNs : UInt64
  name : Option String

/-- `spans[0]`, the request's own span. -/
def requestSpan (req : Request) : GenericSpan :=
  { GenericSpan.zero with
    traceId := req.traceId
    spanId := req.spanId
    startUnixNs := req.startNs
    endUnixNs := req.endNs
    name := some (req.name.getD "a55.request")
    kind := 2 }

/-- A record inside the request's window. -/
def inWindow (req : Request) (src : AmpRingRec) : Bool :=
  src.hdr.timestamp ≥ req.startNs && src.hdr.timestamp ≤ req.endNs

/-- The span of one record: a child of the request's inside the window, a root outside. -/
def recordSpan (req : Request) (seed : UInt64) (src : AmpRingRec) : GenericSpan × UInt64 :=
  let (s, seed) :=
    if inWindow req src then otlpSpanNewChild GenericSpan.zero (requestSpan req) seed
    else otlpSpanNewRoot GenericSpan.zero seed
  ({ s with
      startUnixNs := src.hdr.timestamp
      endUnixNs := src.hdr.timestamp
      name := some "amp.emit"
      kind := 1
      attrs := [("amp.value", toString src.value)] }, seed)

/-- The spans of the records, the seed passed along. -/
def recordSpans (req : Request) : UInt64 → List AmpRingRec → List GenericSpan
  | _, [] => []
  | seed, src :: recs =>
      let (s, seed) := recordSpan req seed src
      s :: recordSpans req seed recs

/-- `amp_ring_drain_trace`. -/
def ampRingDrainTrace (r : AmpRing) (otlpTracesBuild : List GenericSpan → Int) (req : Request)
    (seed : UInt64) : Drained :=
  if r.magic ≠ ampRingMagic then ⟨-1, 0, r⟩
  else
    let (recs, cons) := drainLoop r ampDrainMax r.cons
    let len := otlpTracesBuild (requestSpan req :: recordSpans req seed recs)
    if len < 0 then ⟨-1, 0, r⟩
    else ⟨len, recs.countP (inWindow req), { r with cons := cons }⟩

end SpinelEbpf.Amp

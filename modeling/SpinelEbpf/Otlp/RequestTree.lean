import SpinelEbpf.Otlp.Batch

/-!
# Otlp — the request tree

`spnl_otlp_request_tree_push_obj` makes a span of each request and nests under it the DNS resolves
and TCP connects that happened in its window.  A child may be drained before its request is, so
children wait in a pending buffer: each cycle adds the drained ones, marks those that a request of
the cycle adopts, and sweeps the buffer, where a child that has waited too long becomes a span of
its own and the others are moved up in place.

The two kinds of children have the same loops (`Pend.adopt`, `Pend.sweep`), written over what
differs between them (`Source`).
-/

namespace SpinelEbpf.Otlp.RequestTree
open Otlp

/-- `OTLP_MAX_LOGS`. -/
def maxLogs : Nat := 8192

/-- `otlp_child_in_window`. -/
def otlpChildInWindow (childTgid : UInt32) (childKtime : UInt64) (parentTgid : UInt32)
    (parentStartKtime parentDurNs : UInt64) : Bool :=
  if parentStartKtime = 0 then false
  else if childTgid ≠ parentTgid then false
  else childKtime ≥ parentStartKtime && childKtime ≤ parentStartKtime + parentDurNs

/-- `otlp_span_root_from_traceparent`, given the trace and span ids of a valid header. -/
def otlpSpanRootFromTraceparent (s : GenericSpan) (ids : Option (List UInt8 × List UInt8))
    (seed : UInt64) : GenericSpan × UInt64 :=
  match ids with
  | none => otlpSpanNewRoot s seed
  | some (traceId, parentId) =>
      let (id, seed) := splitmix64 seed
      ({ s with traceId := traceId, parentSpanId := parentId, hasParent := true
                spanId := putU64Be id }, seed)

/-- A request: its window, the ids in its `traceparent` header, and what the record makes of the
span of the request and of the span of its off-CPU wait, if it has one. -/
structure Window where
  pid : UInt32
  startKtime : UInt64
  durationNs : UInt64
  traceparent : Option (List UInt8 × List UInt8)
  fill : Int64 → GenericSpan → GenericSpan
  wait : Option (Int64 → GenericSpan → GenericSpan)

/-- The span of a request. -/
def Window.span (w : Window) (off : Int64) (seed : UInt64) : GenericSpan × UInt64 :=
  let (s, seed) := otlpSpanRootFromTraceparent .zero w.traceparent seed
  (w.fill off s, seed)

/-- The ids of a span. -/
def GenericSpan.ids (s : GenericSpan) : List UInt8 × List UInt8 × List UInt8 × Bool :=
  (s.traceId, s.spanId, s.parentSpanId, s.hasParent)

/-- A kind of children: `pid` and `hdr.timestamp` of a record, and the filler, which may decline
(`otlp_tree_fill_dns`, `otlp_tree_fill_conn`).  The filler is given the clock offset, whether the
span is nested, and a span with its ids, which it leaves alone. -/
structure Source (α : Type) where
  pid : α → UInt32
  timestamp : α → UInt64
  fill : α → Int64 → Bool → GenericSpan → Option GenericSpan
  fill_ids : ∀ x off nested s s', fill x off nested s = some s' →
    GenericSpan.ids s' = GenericSpan.ids s

/-- A child that has left the buffer: the request it is under, by its place in the cycle, and the
span that was added to the batch for it, `none` if the filler declined. -/
structure Handed (α : Type) where
  child : α
  under : Option Nat
  span : Option GenericSpan

/-- `g_pend_dns`, `g_npend_dns` and `dns_used`, or their counterparts for connects. -/
structure Pend (α : Type) where
  recs : Nat → α
  n : Nat
  used : Nat → Bool

/-- The seed, and what happened to spans and children so far. -/
structure Work (γ : Type) where
  seed : UInt64
  out : List γ

section Loops

variable {α γ : Type}

/-- A newly drained child; it is dropped if the buffer is full. -/
def Pend.carry (p : Pend α) (x : α) : Pend α :=
  if p.n < maxLogs then { p with recs := Function.update p.recs p.n x, n := p.n + 1 } else p

/-- The marks are cleared. -/
def Pend.clear (p : Pend α) : Pend α := { p with used := fun j => !decide (j < p.n) && p.used j }

/-- Entry `j` of the buffer, for request `i` of the cycle. -/
def Pend.adopt (src : Source α) (emit : Handed α → γ) (off : Int64) (i : Nat) (w : Window)
    (parent : GenericSpan) (st : Pend α × Work γ) (j : Nat) : Pend α × Work γ :=
  let (p, work) := st
  let x := p.recs j
  if p.used j then st
  else if !otlpChildInWindow (src.pid x) (src.timestamp x) w.pid w.startKtime w.durationNs then st
  else
    let (ch, seed) := otlpSpanNewChild .zero parent work.seed
    ({ p with used := Function.update p.used j true },
      ⟨seed, work.out ++ [emit ⟨x, some i, src.fill x off true ch⟩]⟩)

/-- The pending children that request `i` adopts. -/
def Pend.adoptAll (src : Source α) (emit : Handed α → γ) (off : Int64) (i : Nat) (w : Window)
    (parent : GenericSpan) (p : Pend α) (work : Work γ) : Pend α × Work γ :=
  (List.range p.n).foldl (Pend.adopt src emit off i w parent) (p, work)

/-- A child has waited longer than `ttl`. -/
def expired (now ttl timestamp : UInt64) : Bool := now ≥ timestamp && now - timestamp > ttl

/-- Entry `j` of the buffer in the sweep, with `k` children kept so far. -/
def Pend.sweepOne (src : Source α) (emit : Handed α → γ) (off : Int64) (now ttl : UInt64)
    (st : Pend α × Nat × Work γ) (j : Nat) : Pend α × Nat × Work γ :=
  let (p, k, work) := st
  let x := p.recs j
  if p.used j then st
  else if expired now ttl (src.timestamp x) then
    let (s, seed) := otlpSpanNewRoot .zero work.seed
    (p, k, ⟨seed, work.out ++ [emit ⟨x, none, src.fill x off false s⟩]⟩)
  else ({ p with recs := Function.update p.recs k x }, k + 1, work)

/-- The sweep of the buffer. -/
def Pend.sweep (src : Source α) (emit : Handed α → γ) (off : Int64) (now ttl : UInt64)
    (p : Pend α) (work : Work γ) : Pend α × Work γ :=
  let (p, k, work) := (List.range p.n).foldl (Pend.sweepOne src emit off now ttl) (p, 0, work)
  ({ p with n := k }, work)

end Loops

/-- What happens in a cycle: the span of a request or of its wait, or a child that leaves its
buffer. -/
inductive Event (α β : Type) where
  | request (s : GenericSpan)
  | wait (s : GenericSpan)
  | dns (h : Handed α)
  | conn (h : Handed β)

/-- The span that is added to the batch. -/
def Event.span {α β : Type} : Event α β → Option GenericSpan
  | .request s => some s
  | .wait s => some s
  | .dns h => h.span
  | .conn h => h.span

/-- `SPNL_TREE_CHILD_TTL_MS` in nanoseconds, by default 30 seconds. -/
def treeChildTtl (env : Option Int) : UInt64 :=
  match env with
  | none => 30000 * 1000000
  | some v => if v > 0 then UInt64.ofNat v.toNat * 1000000 else 30000 * 1000000

/-- The inputs of a cycle: what is drained, the clocks, the seed and the environment. -/
structure Cycle (α β : Type) where
  windows : List Window
  dns : List α
  conn : List β
  off : Int64
  seed : UInt64
  now : UInt64
  ttlMs : Option Int
  endpoint : String
  env : Env

/-- The requests that the collector has room for. -/
def Cycle.parents {α β : Type} (cyc : Cycle α β) : List Window := cyc.windows.take maxLogs

/-- `ttl_ns`. -/
def Cycle.ttl {α β : Type} (cyc : Cycle α β) : UInt64 := treeChildTtl cyc.ttlMs

section Push

variable {α β : Type} (dnsSource : Source α) (connSource : Source β)

/-- The two buffers and the work of a cycle. -/
structure Tree (α β : Type) where
  dns : Pend α
  conn : Pend β
  work : Work (Event α β)

/-- The spans of a request's own record: the request, and its off-CPU wait. -/
def Window.own (w : Window) (off : Int64) (work : Work (Event α β)) :
    GenericSpan × Work (Event α β) :=
  let (parent, seed) := w.span off work.seed
  let work : Work (Event α β) := ⟨seed, work.out ++ [.request parent]⟩
  match w.wait with
  | none => (parent, work)
  | some fill =>
      let (ch, seed) := otlpSpanNewChild .zero parent work.seed
      (parent, ⟨seed, work.out ++ [.wait (fill off ch)]⟩)

/-- Request `i` of a cycle: its own spans, and the children it adopts. -/
def Tree.request (off : Int64) (t : Tree α β) (wi : Window × Nat) : Tree α β :=
  let (w, i) := wi
  let (parent, work) := w.own off t.work
  let (dns, work) := t.dns.adoptAll dnsSource .dns off i w parent work
  let (conn, work) := t.conn.adoptAll connSource .conn off i w parent work
  ⟨dns, conn, work⟩

/-- `spnl_otlp_request_tree_push_obj` on the buffers: carry forward, match, sweep. -/
def Tree.push (cyc : Cycle α β) (t : Tree α β) : Tree α β :=
  let dns := ((cyc.dns.take maxLogs).foldl Pend.carry t.dns).clear
  let conn := ((cyc.conn.take maxLogs).foldl Pend.carry t.conn).clear
  let t := cyc.parents.zipIdx.foldl (Tree.request dnsSource connSource cyc.off)
    ⟨dns, conn, ⟨cyc.seed, []⟩⟩
  let (dns, work) := t.dns.sweep dnsSource .dns cyc.off cyc.now cyc.ttl t.work
  let (conn, work) := t.conn.sweep connSource .conn cyc.off cyc.now cyc.ttl work
  ⟨dns, conn, work⟩

/-- `spnl_otlp_request_tree_push_obj`: the spans of the cycle are pushed through the batch. -/
def spnlOtlpRequestTreePushObj (c : Collector) (cyc : Cycle α β) (st : Tree α β × Sender) :
    Tree α β × Sender :=
  let t := st.1.push dnsSource connSource cyc
  (t, otlpPush c cyc.endpoint cyc.env (t.work.out.filterMap Event.span) st.2)

end Push

end SpinelEbpf.Otlp.RequestTree

import SpinelEbpf.Otlp.Span

/-!
# Otlp — the span batch

The typed consumers (`spnl_otlp_span_send`, `spnl_otlp_span_flush`) and the one-call pushes fill and
send one buffer, `g_span_batch`.  A typed consumer opens the batch at its first send of a cycle and
`g_ev_batch_open` says that it is open; a one-call push begins the batch, adds its spans and flushes
it, and does not look at the flag.

Whether spans get where they were sent is the subject of `Delivery`.
-/

namespace SpinelEbpf.Otlp

/-- `OTLP_BATCH_HARD_MAX`. -/
def batchHardMax : Nat := 128

/-- `OTLP_BATCH_ATTR_CAP`. -/
def batchAttrCap : Nat := 20

/-- `OTLP_BATCH_NAME_CAP`. -/
def batchNameCap : Nat := 320

/-- `OTLP_EV_SPAN_SLOTS`. -/
def evSpanSlots : Nat := 4

/-- `OTLP_EV_SPAN_ATTRS`. -/
def evSpanAttrs : Nat := 20

/-- The size of an entry of `g_ev_name`. -/
def evNameCap : Nat := 160

/-- What a request says about its sender. -/
structure Resource where
  svc : String
  ver : String
  scope : String
  deriving DecidableEq, Repr

/-- The encoder and the other end: the body of a request, `none` if it cannot be built, and the HTTP
status of the `n`-th attempt to send one, `none` if the attempt fails. -/
structure Collector where
  build : Resource → List GenericSpan → Option (List UInt8)
  respond : Nat → Option Int

/-- A span in the buffer, and whether a typed consumer sent it. -/
structure Buffered where
  span : GenericSpan
  sent : Bool
  deriving DecidableEq, Repr

/-- A call of `otlp_transport_send`. -/
structure Attempt where
  endpoint : Option String
  body : List UInt8
  spans : List Buffered
  deriving DecidableEq, Repr

/-- `otlp_span_batch_t`; `n` is the length of `spans`. -/
structure Batch where
  spans : List Buffered
  max : Nat
  posts : Nat
  lastStatus : Int
  endpoint : Option String
  resource : Resource
  deriving DecidableEq, Repr

/-- The batch and the attempts made so far. -/
structure Sender where
  batch : Batch
  attempts : List Attempt

/-- What `otlp_batch_begin` and its callers read from the environment: the number in
`SPNL_OTLP_BATCH_MAX`, `none` if it is unset or empty, and the resource. -/
structure Env where
  batchMax : Option Int
  resource : Resource

/-- `otlp_batch_env_max`. -/
def otlpBatchEnvMax (env : Option Int) : Nat :=
  let m : Int :=
    match env with
    | none => 64
    | some v => if v ≥ 1 then v else 64
  let m := if m < 1 then 1 else m
  (if m > batchHardMax then (batchHardMax : Int) else m).toNat

/-- `otlp_batch_begin`. -/
def otlpBatchBegin (endpoint : String) (env : Env) (st : Sender) : Sender :=
  { st with batch := ⟨[], otlpBatchEnvMax env.batchMax, 0, 0, some endpoint, env.resource⟩ }

/-- `otlp_batch_flush`. -/
def otlpBatchFlush (c : Collector) (st : Sender) : Int × Sender :=
  let b := st.batch
  if b.spans = [] then (0, st)
  else
    let cleared := { b with spans := [] }
    match c.build b.resource (b.spans.map Buffered.span) with
    | none => (-1, { st with batch := cleared })
    | some body =>
        let attempts := st.attempts ++ [⟨b.endpoint, body, b.spans⟩]
        match c.respond st.attempts.length with
        | none => (-1, ⟨cleared, attempts⟩)
        | some status =>
            (status, ⟨{ cleared with posts := b.posts + 1, lastStatus := status }, attempts⟩)

/-- The deep copy that `otlp_batch_add` makes. -/
def GenericSpan.copied (s : GenericSpan) : GenericSpan :=
  { s with
    name := some (String.ofList ((s.name.getD "").toList.take (batchNameCap - 1)))
    attrs := s.attrs.take batchAttrCap }

/-- `otlp_batch_add`. -/
def otlpBatchAdd (c : Collector) (sent : Bool) (s : GenericSpan) (st : Sender) : Int × Sender :=
  let st := if st.batch.spans.length ≥ st.batch.max then (otlpBatchFlush c st).2 else st
  if st.batch.spans.length ≥ batchHardMax then (-1, st)
  else (1, { st with batch := { st.batch with spans := st.batch.spans ++ [⟨s.copied, sent⟩] } })

/-- A span that fits its slot: the slots have room for 20 attributes and a name of 159 bytes. -/
structure SlotSpan where
  span : GenericSpan
  name : (span.name.getD "").length < evNameCap
  attrs : span.attrs.length ≤ evSpanAttrs

/-- The state of the exporter: the batch, the slots `g_ev_span`, `g_ev_slot`, `g_ev_batch_open` and
`g_ev_sent`. -/
structure Exporter where
  sender : Sender
  slots : Nat → SlotSpan
  slot : Nat
  batchOpen : Bool
  sent : Nat

/-- The span that a send with this handle and endpoint takes, and where to; `none` if it does
nothing. -/
def Exporter.request (st : Exporter) (handle : Int) (endpoint : Option String) :
    Option (SlotSpan × String) :=
  match endpoint with
  | none => none
  | some ep =>
      if handle ≤ 0 ∨ handle > evSpanSlots ∨ ep = "" then none
      else some (st.slots (handle - 1).toNat, ep)

/-- `spnl_otlp_span_send`. -/
def spnlOtlpSpanSend (c : Collector) (handle : Int) (endpoint : Option String) (env : Env)
    (st : Exporter) : Int × Exporter :=
  match st.request handle endpoint with
  | none => (0, st)
  | some (s, ep) =>
      let st :=
        if st.batchOpen then st
        else { st with sender := otlpBatchBegin ep env st.sender, batchOpen := true, sent := 0 }
      (1, { st with sender := (otlpBatchAdd c true s.span st.sender).2, sent := st.sent + 1 })

/-- `spnl_otlp_span_flush`. -/
def spnlOtlpSpanFlush (c : Collector) (st : Exporter) : Int × Exporter :=
  if !st.batchOpen then (0, st)
  else
    let (status, sender) := otlpBatchFlush c st.sender
    (status, { st with sender := sender, batchOpen := false })

/-- The part of a one-call push that touches the batch. -/
def otlpPush (c : Collector) (endpoint : String) (env : Env) (spans : List GenericSpan)
    (st : Sender) : Sender :=
  let st := otlpBatchBegin endpoint env st
  let st := spans.foldl (fun st s => (otlpBatchAdd c false s st).2) st
  (otlpBatchFlush c st).2

/-- `to_span`: the next slot is filled. -/
def recToSpan (s : SlotSpan) (st : Exporter) : Exporter :=
  { st with slots := Function.update st.slots st.slot s, slot := (st.slot + 1) % evSpanSlots }

end SpinelEbpf.Otlp

import Mathlib

/-!
# Otlp — spans and their ids

The generic span of `otlp_traces.h` and the id primitives of `otlp_traces.c`: a root span draws
a new trace id and span id, a child span shares its parent's trace id and points at it.  The seed
is `splitmix64` state and every draw advances it.
-/

namespace SpinelEbpf.Otlp

/-- `splitmix64`: the word drawn, and the advanced seed. -/
def splitmix64 (seed : UInt64) : UInt64 × UInt64 :=
  let s := seed + 0x9E3779B97F4A7C15
  let z := (s ^^^ (s >>> 30)) * 0xBF58476D1CE4E5B9
  let z := (z ^^^ (z >>> 27)) * 0x94D049BB133111EB
  (z ^^^ (z >>> 31), s)

/-- `put_u64_be`: the eight bytes of `v`, high byte first. -/
def putU64Be (v : UInt64) : List UInt8 :=
  (List.range 8).map fun i => (v >>> UInt64.ofNat (56 - 8 * i)).toUInt8

/-- `otlp_generic_span_t`; `name = none` is a null pointer. -/
structure GenericSpan where
  traceId : List UInt8
  spanId : List UInt8
  parentSpanId : List UInt8
  hasParent : Bool
  startUnixNs : UInt64
  endUnixNs : UInt64
  name : Option String
  kind : Int
  isError : Bool
  attrs : List (String × String)
  deriving DecidableEq, Repr

/-- A span cleared by `memset`. -/
def GenericSpan.zero : GenericSpan where
  traceId := List.replicate 16 0
  spanId := List.replicate 8 0
  parentSpanId := List.replicate 8 0
  hasParent := false
  startUnixNs := 0
  endUnixNs := 0
  name := none
  kind := 0
  isError := false
  attrs := []

/-- `otlp_span_new_root`. -/
def otlpSpanNewRoot (s : GenericSpan) (seed : UInt64) : GenericSpan × UInt64 :=
  let (hi, seed) := splitmix64 seed
  let (lo, seed) := splitmix64 seed
  let (id, seed) := splitmix64 seed
  ({ s with
      traceId := putU64Be hi ++ putU64Be lo
      spanId := putU64Be id
      hasParent := false
      parentSpanId := List.replicate 8 0 }, seed)

/-- `otlp_span_new_child`. -/
def otlpSpanNewChild (child parent : GenericSpan) (seed : UInt64) : GenericSpan × UInt64 :=
  let (id, seed) := splitmix64 seed
  ({ child with
      traceId := parent.traceId
      parentSpanId := parent.spanId
      hasParent := true
      spanId := putU64Be id }, seed)

end SpinelEbpf.Otlp

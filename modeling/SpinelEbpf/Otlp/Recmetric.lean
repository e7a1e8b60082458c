import SpinelEbpf.Record.Metrics
import SpinelEbpf.Support.Tally

/-!
# Otlp — aggregating declared metrics

`spnl_recmetric_observe` projects the labels of an observation onto their permitted sets, finds the
time series with these labels or adds one (`intern`), and counts.  There are 256 series and no
policy for the next one: the generator has made sure that there is none (`Bounded`).

The series are the first `g_nseries` of the array, so `used` is set in each.
-/

namespace SpinelEbpf.Otlp.Recmetric
open Record

variable {V : Type}

/-- `recmetric_series_t`; `val` has the labels of the metric. -/
structure Series (V : Type) where
  metric : Nat
  val : List String
  count : UInt64
  sum : V
  buckets : Nat → UInt64

/-- `g_series` and `g_overflow_warned`. -/
structure State (V : Type) where
  series : List (Series V)
  overflowWarned : Bool

/-- No series. -/
def State.start : State V := ⟨[], false⟩

/-- `project`. -/
def project (l : LabelDesc) (raw : String) : String :=
  match l.values with
  | none => raw
  | some values =>
      match values.find? fun v => v = raw with
      | some v => v
      | none   => l.fallback.getD ""

/-- The comparison of `intern`. -/
def Series.hit (metric : Nat) (proj : List String) (s : Series V) : Bool :=
  s.metric = metric && (List.range proj.length).all fun k => s.val.getD k "" = proj.getD k ""

/-- `intern`: the place of the series, `none` if there is no room for it. -/
def intern (arith : Arith V) (t : Tables V) (metric : Nat) (proj : List String) (st : State V) :
    Option Nat × State V :=
  match st.series.findIdx? (Series.hit metric proj) with
  | some i => (some i, st)
  | none   =>
      if st.series.length ≥ maxSeries then (none, { st with overflowWarned := true })
      else
        let s := ⟨metric, proj.map (cut t.labelValMax), 0, arith.zero, fun _ => 0⟩
        (some st.series.length, { st with series := st.series ++ [s] })

/-- The bucket of a value: the first boundary that is not below it, or the last bucket. -/
def bucket (arith : Arith V) (bounds : List V) (value : V) : Nat :=
  bounds.findIdx fun b => arith.le value b

/-- What `spnl_recmetric_observe` does to the series. -/
def Series.add (arith : Arith V) (d : MetricDesc V) (call : Call V) (s : Series V) : Series V :=
  let s := { s with count := s.count + 1 }
  if d.isHist && call.hasValue then
    let b := bucket arith d.bounds call.value
    { s with buckets := Function.update s.buckets b (s.buckets b + 1)
             sum := arith.add s.sum call.value }
  else s

/-- The labels of a call, projected. -/
def projected (d : MetricDesc V) (call : Call V) : List String :=
  List.zipWith project d.labels call.labelValues

/-- `spnl_recmetric_observe`, and the place of the series that the observation falls into. -/
def spnlRecmetricObserve (arith : Arith V) (t : Tables V) (call : Call V) (st : State V) :
    Option Nat × State V :=
  match t.metrics[call.metric]? with
  | none => (none, st)
  | some d =>
      if call.labelValues.length ≠ d.labels.length ∨ call.labelValues.length > t.maxLabels then
        (none, st)
      else
        match intern arith t call.metric (projected d call) st with
        | (none, st)   => (none, st)
        | (some i, st) => (some i, { st with series := st.series.modify i (Series.add arith d call) })

/-- The state after some calls, and each call with the place of its series. -/
def observeAll (arith : Arith V) (t : Tables V) :
    State V → List (Call V) → State V × List (Call V × Option Nat)
  | st, [] => (st, [])
  | st, call :: calls =>
      let (i, st) := spnlRecmetricObserve arith t call st
      let (st, log) := observeAll arith t st calls
      (st, (call, i) :: log)

end SpinelEbpf.Otlp.Recmetric

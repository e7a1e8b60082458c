import SpinelEbpf.Support.Number
import SpinelEbpf.Support.Wire

/-!
# Otlp — the two encodings of a histogram

`otlp_json.c` and `otlp_metrics.c` each encode a histogram metric for the collector: one as JSON
text, one as protocol buffers.  A reader of either gets a list of data points (`jsonPoints`,
`pbPoints`). `HistogramData` compares the two lists.

Sums and boundaries are doubles; those that are whole numbers below `2 ^ 53` are `Whole`.  A C
string is its bytes before the terminator.  The fixed buffer is `cap`; what does not fit is not
built.
-/

namespace SpinelEbpf.Otlp.Histogram
open Json Number

/-- A double that is a whole number below `2 ^ 53`. -/
structure Whole where
  val : Nat
  lt : val < 2 ^ 53
  deriving DecidableEq, Repr

/-- `otlp_hseries_t`. -/
structure OtlpHseries where
  labels : List (Text × Text)
  count : UInt64
  sum : Whole
  bucketCounts : Nat → UInt64

/-- What both builders are given. -/
structure Input where
  serviceName : Text
  serviceVersion : Text
  serviceInstanceId : Text
  /-- `OTEL_RESOURCE_ATTRIBUTES`. -/
  resourceAttributes : List (Text × Text)
  scope : Option Text
  name : Text
  unit : Text
  bounds : List Whole
  time : UInt64
  start : UInt64
  series : List OtlpHseries

/-- A data point of the histogram, as a reader has it. -/
structure DataPoint where
  startTimeUnixNano : UInt64
  timeUnixNano : UInt64
  count : UInt64
  sum : Option ℚ
  bucketCounts : List UInt64
  explicitBounds : List ℚ
  attributes : List (Text × Text)
  deriving DecidableEq

/-- `bucket_counts[0 .. nbounds]`. -/
def OtlpHseries.counts (s : OtlpHseries) (nbounds : Nat) : List UInt64 :=
  (List.range (nbounds + 1)).map s.bucketCounts

/-- The resource attributes, in the order of both encoders. -/
def Input.resource (i : Input) : List (Text × Text) :=
  [(ascii "service.name", i.serviceName), (ascii "service.version", i.serviceVersion),
    (ascii "service.instance.id", i.serviceInstanceId),
    (ascii "telemetry.sdk.name", ascii "spinel-ebpf"), (ascii "telemetry.sdk.language", ascii "ruby"),
    (ascii "telemetry.sdk.version", ascii "0")] ++ i.resourceAttributes

/-- The name of the scope. -/
def Input.scopeName (i : Input) : Text := i.scope.getD (ascii "spinel-ebpf")

/-! ### JSON -/

/-- `jw_jstr`. -/
def jwJstr (s : Text) : Text := quote s

/-- `jw_u64q`. -/
def jwU64q (v : UInt64) : Text := 34 :: (decimal v.toNat ++ [34])

/-- `jw_dbl`. -/
def jwDbl (v : Whole) : Text := gText v.val

/-- Texts with commas between them. -/
def commas : List Text → Text
  | [] => []
  | [x] => x
  | x :: y :: xs => x ++ 44 :: commas (y :: xs)

/-- An attribute, as `jw_res_kv` and `jw_labels` write it. -/
def jwKv (kv : Text × Text) : Text :=
  ascii "\x7b\"key\":" ++ jwJstr kv.1 ++ ascii ",\"value\":\x7b\"stringValue\":" ++ jwJstr kv.2 ++
    ascii "\x7d\x7d"

/-- `jw_resource`; attributes without a value are left out. -/
def jwResource (i : Input) : Text :=
  ascii "\"resource\":\x7b\"attributes\":[" ++
    commas ((i.resource.filter fun kv => kv.2 ≠ []).map jwKv) ++ ascii "]\x7d"

/-- `jw_scope`. -/
def jwScope (i : Input) : Text :=
  ascii "\"scope\":\x7b\"name\":" ++ jwJstr i.scopeName ++ ascii "\x7d"

/-- `jw_labels`. -/
def jwLabels (labels : List (Text × Text)) : Text :=
  ascii "\"attributes\":[" ++ commas (labels.map jwKv) ++ ascii "]"

/-- A data point. -/
def jwPoint (i : Input) (s : OtlpHseries) : Text :=
  ascii "\x7b\"startTimeUnixNano\":" ++ jwU64q i.start ++ ascii ",\"timeUnixNano\":" ++
    jwU64q i.time ++ ascii ",\"count\":" ++ jwU64q s.count ++ ascii ",\"sum\":" ++ jwDbl s.sum ++
    ascii ",\"bucketCounts\":[" ++ commas ((s.counts i.bounds.length).map jwU64q) ++
    ascii "],\"explicitBounds\":[" ++ commas (i.bounds.map jwDbl) ++ ascii "]," ++
    jwLabels s.labels ++ ascii "\x7d"

/-- The text of `otlp_json_metrics_hist_build`; a series that counts nothing is left out. -/
def jsonText (i : Input) : Text :=
  ascii "\x7b\"resourceMetrics\":[\x7b" ++ jwResource i ++ ascii ",\"scopeMetrics\":[\x7b" ++
    jwScope i ++ ascii ",\"metrics\":[\x7b\"name\":" ++ jwJstr i.name ++
    (if i.unit ≠ [] then ascii ",\"unit\":" ++ jwJstr i.unit else []) ++
    ascii ",\"histogram\":\x7b\"dataPoints\":[" ++
    commas ((i.series.filter fun s => s.count ≠ 0).map (jwPoint i)) ++
    ascii "],\"aggregationTemporality\":2\x7d\x7d]\x7d]\x7d]\x7d"

/-- `otlp_json_metrics_hist_build`. -/
def otlpJsonMetricsHistBuild (cap : Nat) (i : Input) : Option Text :=
  if (jsonText i).length ≤ cap then some (jsonText i) else none

/-! ### Protocol buffers -/

/-- A string or nested message as a field. -/
def put (f : Nat) (bs : List UInt8) : Nat × Wire.Item := (f, .bytes bs)

/-- A 64-bit word without presence: zero is the default and is left out. -/
def putFixed64 (f : Nat) (v : UInt64) : Wire.Message := if v = 0 then [] else [(f, .fixed64 v)]

/-- The bits of a double. -/
def Whole.bits (v : Whole) : UInt64 := UInt64.ofNat (doubleBits v.val)

/-- `otlp_put_kv_str`: the message of a `KeyValue`. -/
def otlpPutKvStr (kv : Text × Text) : List UInt8 :=
  Wire.encode [put 1 kv.1, put 2 (Wire.encode [put 1 kv.2])]

/-- `otlp_enc_resource_attrs`; only the name and the version may be missing. -/
def otlpEncResourceAttrs (i : Input) : Wire.Message :=
  ((i.resource.take 2).filter (fun kv => kv.2 ≠ []) ++ i.resource.drop 2).map fun kv =>
    put 1 (otlpPutKvStr kv)

/-- `enc_hist_dps`, for one series. -/
def encHistDp (i : Input) (s : OtlpHseries) : Wire.Message :=
  putFixed64 2 i.start ++ putFixed64 3 i.time ++ putFixed64 4 s.count ++ [(5, .fixed64 s.sum.bits)] ++
    (s.counts i.bounds.length).map (fun v => (6, .fixed64 v)) ++
    i.bounds.map (fun b => (7, .fixed64 b.bits)) ++ s.labels.map fun kv => put 9 (otlpPutKvStr kv)

/-- The `Histogram`; 2 is `CUMULATIVE`. -/
def encHist (i : Input) : Wire.Message :=
  (i.series.map fun s => put 1 (Wire.encode (encHistDp i s))) ++ [(2, .varint 2)]

/-- `enc_hist_metric`. -/
def encHistMetric (i : Input) : Wire.Message :=
  [put 1 i.name] ++ (if i.unit ≠ [] then [put 3 i.unit] else []) ++ [put 9 (Wire.encode (encHist i))]

/-- `metrics_envelope_encode`. -/
def metricsEnvelopeEncode (i : Input) (metric : Wire.Message) : List UInt8 :=
  let scope := Wire.encode [put 1 i.scopeName]
  let sm := Wire.encode [put 1 scope, put 2 (Wire.encode metric)]
  let rm := Wire.encode [put 1 (Wire.encode (otlpEncResourceAttrs i)), put 2 sm]
  Wire.encode [put 1 rm]

/-- `otlp_metrics_hist_build`. -/
def otlpMetricsHistBuild (cap : Nat) (i : Input) : Option (List UInt8) :=
  let bytes := metricsEnvelopeEncode i (encHistMetric i)
  if bytes.length ≤ cap then some bytes else none

/-! ### Reading JSON -/

/-- The member `k` of an object. -/
def member (k : String) : Value → Option Value
  | .obj kvs => (kvs.find? fun kv => kv.1 = ascii k).map Prod.snd
  | _ => none

/-- The elements of an array. -/
def elements : Value → Option (List Value)
  | .arr xs => some xs
  | _ => none

/-- A 64-bit integer, which the JSON mapping writes as a string. -/
def u64 : Value → Option UInt64
  | .str s => do
      let n ← ofDecimal s
      if n < 2 ^ 64 then some (UInt64.ofNat n) else none
  | _ => none

/-- A double. -/
def double : Value → Option ℚ
  | .num n => numValue n.text
  | _ => none

def text : Value → Option Text
  | .str s => some s
  | _ => none

/-- An attribute with a string value. -/
def jsonAttribute (v : Value) : Option (Text × Text) := do
  let k ← member "key" v >>= text
  let s ← member "value" v >>= member "stringValue" >>= text
  some (k, s)

/-- A data point. -/
def jsonPoint (v : Value) : Option DataPoint := do
  let start ← member "startTimeUnixNano" v >>= u64
  let time ← member "timeUnixNano" v >>= u64
  let count ← member "count" v >>= u64
  let sum ← member "sum" v >>= double
  let counts ← member "bucketCounts" v >>= elements >>= List.mapM u64
  let bounds ← member "explicitBounds" v >>= elements >>= List.mapM double
  let labels ← member "attributes" v >>= elements >>= List.mapM jsonAttribute
  some ⟨start, time, count, some sum, counts, bounds, labels⟩

/-- The elements of the member `k` of each value. -/
def below (k : String) (vs : List Value) : Option (List Value) :=
  (vs.mapM fun v => member k v >>= elements).map List.flatten

/-- The data points of a request. -/
def jsonPoints (text : Text) : Option (List DataPoint) := do
  let doc ← parse text
  let metrics ← below "resourceMetrics" [doc] >>= below "scopeMetrics" >>= below "metrics"
  let hists ← metrics.mapM (member "histogram")
  let points ← below "dataPoints" hists
  points.mapM jsonPoint

/-! ### Reading protocol buffers -/

/-- The byte strings of field `f`. -/
def allBytes (f : Nat) (m : Wire.Message) : List (List UInt8) :=
  m.filterMap fun x =>
    match x with
    | (g, .bytes bs) => if g = f then some bs else none
    | _ => none

/-- The 64-bit words of field `f`. -/
def allFixed64 (f : Nat) (m : Wire.Message) : List UInt64 :=
  m.filterMap fun x =>
    match x with
    | (g, .fixed64 v) => if g = f then some v else none
    | _ => none

/-- The messages in field `f` of each message. -/
def nested (f : Nat) (ms : List Wire.Message) : Option (List Wire.Message) :=
  (ms.flatMap (allBytes f)).mapM Wire.decode

/-- The last string of field `f`; the empty one by default. -/
def lastBytes (f : Nat) (m : Wire.Message) : Text := (allBytes f m).getLast?.getD []

/-- An attribute with a string value. -/
def pbAttribute (m : Wire.Message) : Option (Text × Text) := do
  let v ← Wire.decode (lastBytes 2 m)
  some (lastBytes 1 m, lastBytes 1 v)

/-- A data point. -/
def pbPoint (m : Wire.Message) : Option DataPoint := do
  let bounds ← (allFixed64 7 m).mapM fun b => doubleValue b.toNat
  let sum ← (allFixed64 5 m).mapM fun b => doubleValue b.toNat
  let labels ← nested 9 [m] >>= List.mapM pbAttribute
  some ⟨(allFixed64 2 m).getLast?.getD 0, (allFixed64 3 m).getLast?.getD 0,
    (allFixed64 4 m).getLast?.getD 0, sum.getLast?, allFixed64 6 m, bounds, labels⟩

/-- The data points of a request. -/
def pbPoints (bs : List UInt8) : Option (List DataPoint) := do
  let req ← Wire.decode bs
  let metrics ← nested 1 [req] >>= nested 2 >>= nested 2
  let points ← nested 9 metrics >>= nested 1
  points.mapM pbPoint

end SpinelEbpf.Otlp.Histogram

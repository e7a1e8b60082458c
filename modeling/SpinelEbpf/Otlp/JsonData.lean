import SpinelEbpf.Otlp.HistogramData
import SpinelEbpf.Otlp.JsonWriter

/-!
# Otlp — what the JSON requests say

The texts that `JsonWriter` writes are renderings of trees, so they parse, and a reader finds in
them what the builder was given: the resource and the scope (`Request`), and the records, spans or
points in their order, with strings unescaped and integers as numbers (`jsonLogs`, `jsonSpans`,
`jsonSums`). With what the writer does to a buffer, that is `json_faithful`.
-/

namespace SpinelEbpf.Otlp.JsonWriter
open Bytes Json Number
open EnvList (CString OtlpKv)
open HeaderBlock (Capacity)
open Histogram (commas kvTree u64Tree member elements text u64 jsonAttribute renderElems_map
  render_kvTree render_u64Tree u64_u64Tree mapM_map_eq jsonAttribute_kvTree quoted quote_plain
  ascii_attributes ascii_brace ascii_braces ascii_bracket ascii_bracketBrace ascii_resource
  ascii_resourceMetrics ascii_scope ascii_scopeMetrics ascii_startTime ascii_time ascii_unit)

/-! ### Trees -/

def i64Tree (v : Int) : Value := .str (signed v)

def intTree (v : Int) : Value :=
  .num ⟨signed v, (signed_spec v).1, (signed_spec v).2.1, (signed_spec v).2.2⟩

def hexTree (bs : List UInt8) : Value := .str (bs.flatMap hexPair)

/-- The pairs that `jw_resource` goes through. -/
def Context.allPairs (c : Context) : List (Text × Text) :=
  [(ascii "service.name", (chars c.svc).getD []), (ascii "service.version", (chars c.ver).getD []),
    (ascii "service.instance.id", c.serviceInstanceId.bytes),
    (ascii "telemetry.sdk.name", ascii "spinel-ebpf"), (ascii "telemetry.sdk.language", ascii "ruby"),
    (ascii "telemetry.sdk.version", ascii "0")] ++ c.envPairs.map fun kv => (kv.key, kv.val)

/-- The attributes of the resource; those without a value are left out. -/
def Context.resource (c : Context) : List (Text × Text) := c.allPairs.filter fun kv => kv.2 ≠ []

/-- The name of the scope. -/
def Context.scopeName (c : Context) : Text := (chars c.scope).getD (ascii "spinel-ebpf")

/-- A request with the elements `xs`. -/
def requestTree (c : Context) (top scopes items : String) (xs : List Value) : Value :=
  .obj [(ascii top, .arr [.obj [
    (ascii "resource", .obj [(ascii "attributes", .arr (c.resource.map kvTree))]),
    (ascii scopes, .arr [.obj [
      (ascii "scope", .obj [(ascii "name", .str c.scopeName)]),
      (ascii items, .arr xs)]])]])]

/-- A member that may be missing. -/
def optional (k : String) (v : Option Value) : List (Text × Value) :=
  (v.map fun v => (ascii k, v)).toList

/-- A string that is not empty. -/
def nonempty (s : Option CString) : Option Text :=
  if (chars s).getD [] = [] then none else some ((chars s).getD [])

def logTree (r : OtlpLogRecord) : Value :=
  .obj ([(ascii "timeUnixNano", u64Tree r.timeUnixNs),
    (ascii "observedTimeUnixNano", u64Tree r.timeUnixNs),
    (ascii "severityNumber", intTree (if r.severity ≠ 0 then r.severity.toInt else 9)),
    (ascii "severityText", .str (ascii "INFO")),
    (ascii "body", .obj [if r.bodyIsStr then
      (ascii "stringValue", .str ((chars r.bodyStr).getD []))
      else (ascii "intValue", i64Tree r.bodyInt.toInt)])] ++
    optional "eventName" ((nonempty r.eventName).map .str))

/-- The `code.*` attributes of a method. -/
def codeTrees (m : OtlpMethodMeta) : List Value :=
  [kvTree (ascii "code.function", (chars m.method).getD [])] ++
    ((nonempty m.file).map fun f => kvTree (ascii "code.filepath", f)).toList ++
    if 0 < m.line then [.obj [(ascii "key", .str (ascii "code.lineno")),
      (ascii "value", .obj [(ascii "intValue", i64Tree m.line.toInt)])]] else []

/-- The method of a span. -/
def methodOf (metas : List OtlpMethodMeta) (s : Traces.Span) : Option OtlpMethodMeta :=
  metas.find? fun m => m.idx = s.methodIdx

def spanName (metas : List OtlpMethodMeta) (s : Traces.Span) : Text :=
  ((methodOf metas s).bind fun m => chars m.method).getD (ascii "?")

def spanTree (metas : List OtlpMethodMeta) (s : Traces.Span) : Value :=
  .obj ([(ascii "traceId", hexTree (s.traceId.take 16)), (ascii "spanId", hexTree (s.spanId.take 8))] ++
    optional "parentSpanId" (if s.hasParent then some (hexTree (s.parentSpanId.take 8)) else none) ++
    [(ascii "name", .str (spanName metas s)), (ascii "kind", intTree 1),
      (ascii "startTimeUnixNano", u64Tree s.startUnixNs),
      (ascii "endTimeUnixNano", u64Tree s.endUnixNs)] ++
    optional "attributes" ((methodOf metas s).map fun m => .arr (codeTrees m)))

def labelPair (kv : CString × CString) : Text × Text := (kv.1.bytes, kv.2.bytes)

def pointTree (t start : UInt64) (x : OtlpSeries) : Value :=
  .obj [(ascii "startTimeUnixNano", u64Tree start), (ascii "timeUnixNano", u64Tree t),
    (ascii "asInt", i64Tree x.count.toInt64.toInt),
    (ascii "attributes", .arr ((x.labels.map labelPair).map kvTree))]

/-- The series that count something. -/
def counting (series : List OtlpSeries) : List OtlpSeries := series.filter fun x => x.count ≠ 0

def sumTree (name unit : Option CString) (t start : UInt64) (series : List OtlpSeries) : Value :=
  .obj ([(ascii "name", .str ((chars name).getD []))] ++
    optional "unit" ((nonempty unit).map .str) ++
    [(ascii "sum", .obj [(ascii "dataPoints", .arr ((counting series).map (pointTree t start))),
      (ascii "aggregationTemporality", intTree 2), (ascii "isMonotonic", .lit .tt)])])

/-! ### The texts are renderings -/

theorem render_i64Tree (v : Int) : render (i64Tree v) = 34 :: (signed v ++ [34]) := by
  have hplain : ∀ c : UInt8, isNum c = true → escape c = [c] := by decide +kernel
  rw [i64Tree, render, quote_plain]
  exact fun c hc => hplain c (List.all_eq_true.mp (signed_spec v).2.1 c hc)

theorem render_intTree (v : Int) : render (intTree v) = signed v := by
  rw [intTree, render]

theorem render_hexTree (bs : List UInt8) :
    render (hexTree bs) = 34 :: (bs.flatMap hexPair ++ [34]) := by
  have hplain : ∀ n : UInt8, n < 16 → escape (hexDigit n) = [hexDigit n] := by decide +kernel
  rw [hexTree, render, quote_plain]
  intro c hc
  obtain ⟨b, -, hcb⟩ := List.mem_flatMap.mp hc
  have hhigh : b / 16 < 16 := UInt8.lt_iff_toNat_lt.mpr (Nat.div_lt_of_lt_mul b.toNat_lt)
  have hlow : b % 16 < 16 := UInt8.lt_iff_toNat_lt.mpr (Nat.mod_lt b.toNat (by decide))
  rcases List.mem_pair.mp hcb with rfl | rfl
  · exact hplain _ hhigh
  · exact hplain _ hlow

/-- What `jw_res_kv` and `jw_labels` write for a pair. -/
theorem jwKv_eq (k v : Text) (w : Jw) :
    (w |> jwRaw (ascii "\x7b\"key\":") |> jwJstr (some k) |>
      jwRaw (ascii ",\"value\":\x7b\"stringValue\":") |> jwJstr (some v) |>
      jwRaw (ascii "\x7d\x7d")) = jwRaw (render (kvTree (k, v))) w := by
  rw [render_kvTree]
  simp only [jwJstr_eq, jwRaw_append, Option.getD_some, Histogram.jwKv, Histogram.jwJstr,
    List.append_assoc]

theorem jwResKv_getD (s : Bool × Jw) (k : Text) (v : Option Text) :
    jwResKv s k v = jwResKv s k (some (v.getD [])) := by
  simp only [jwResKv, jwJstr, Option.getD_some]

/-- A sequence of calls of `jw_res_kv`. -/
theorem listed_jwResKv {w : Jw} {ys : List Text} {s : Bool × Jw} (h : Listed w ys s)
    (pairs : List (Text × Text)) :
    Listed w (ys ++ (pairs.filter fun kv => decide (kv.2 ≠ [])).map fun kv => render (kvTree kv))
      (pairs.foldl (fun s kv => jwResKv s kv.1 (some kv.2)) s) := by
  refine h.foldl (fun s kv hkv => ?_) (fun s kv hkv => ?_) pairs
  · exact if_pos (not_not.mp (of_decide_eq_false hkv))
  · have hne : ¬ (some kv.2).getD [] = [] := of_decide_eq_true hkv
    rw [jwResKv, if_neg hne]
    exact congrArg (Prod.mk false) (jwKv_eq kv.1 kv.2 _)

theorem jwResource_eq (c : Context) (w : Jw) :
    jwResource c w = jwRaw (ascii "\"resource\":\x7b\"attributes\":[" ++
      renderElems (c.resource.map kvTree) ++ ascii "]\x7d") w := by
  have hstart : Listed (jwRaw (ascii "\"resource\":\x7b\"attributes\":[") w) []
      (true, jwRaw (ascii "\"resource\":\x7b\"attributes\":[") w) := ⟨rfl, rfl⟩
  have hrun := (listed_jwResKv hstart c.allPairs).writer
  rw [List.nil_append, ← renderElems_map (fun _ => rfl), jwRaw_append] at hrun
  rw [← jwRaw_append, Context.resource, ← hrun, Context.allPairs, List.foldl_append, List.foldl_map]
  simp only [List.foldl_cons, List.foldl_nil, ← jwResKv_getD]
  rfl

/-- A loop whose rounds render trees renders them all. -/
theorem jwLoop_render {α : Type} {item : α → Jw → Jw} {tree : α → Value}
    (h : ∀ x w, item x w = jwRaw (render (tree x)) w) (xs : List α) (w : Jw) :
    jwLoop item 0 xs w = jwRaw (renderElems (xs.map tree)) w := by
  rw [jwLoop_eq h, renderElems_map fun _ => rfl]

theorem jwScope_eq (c : Context) (w : Jw) :
    jwScope c w = jwRaw (ascii "\"scope\":\x7b\"name\":" ++ quote c.scopeName ++ ascii "\x7d") w := by
  simp only [jwScope, jwJstr_eq, jwRaw_append, Option.getD_some, Context.scopeName]

theorem jwLabels_eq (labels : List (CString × CString)) (w : Jw) :
    jwLabels labels w = jwRaw (ascii "\"attributes\":[" ++
      renderElems ((labels.map labelPair).map kvTree) ++ ascii "]") w := by
  have hlabel (kv : CString × CString) (w : Jw) :
      jwLabel kv w = jwRaw (render (kvTree (labelPair kv))) w := jwKv_eq _ _ w
  rw [jwLabels, jwLoop_render hlabel, jwRaw_append, jwRaw_append, List.map_map]
  rfl

theorem jwU64q_render (v : UInt64) : jwU64q v = jwRaw (render (u64Tree v)) := by
  rw [jwU64q_eq, render_u64Tree]
  rfl

theorem jwI64q_render (v : Int64) : jwI64q v = jwRaw (render (i64Tree v.toInt)) := by
  rw [jwI64q_eq, render_i64Tree]

theorem jwInt_render (v : Int64) : jwInt v = jwRaw (render (intTree v.toInt)) := by
  rw [jwInt_eq, render_intTree]

theorem jwHex_render (b : List UInt8) (n : Nat) (w : Jw) :
    jwHex b n w = jwRaw (render (hexTree (b.take n))) w := by
  rw [jwHex_eq, render_hexTree]

theorem jwJstr_render (s : Option Text) (w : Jw) :
    jwJstr s w = jwRaw (render (.str (s.getD []))) w := by
  rw [jwJstr_eq, render]

theorem jwLogRecord_eq (r : OtlpLogRecord) (w : Jw) :
    jwLogRecord r w = jwRaw (render (logTree r)) w := by
  have h₁ : ascii "\x7b\"timeUnixNano\":" = 123 :: (quoted "timeUnixNano" ++ [58]) := by decide
  have h₂ : ascii ",\"observedTimeUnixNano\":" =
      44 :: (quoted "observedTimeUnixNano" ++ [58]) := by decide
  have h₃ : ascii ",\"severityNumber\":" = 44 :: (quoted "severityNumber" ++ [58]) := by decide
  have h₄ : ascii ",\"severityText\":\"INFO\",\"body\":\x7b" =
      44 :: (quoted "severityText" ++ 58 :: (quoted "INFO" ++
        44 :: (quoted "body" ++ [58, 123]))) := by decide
  have h₅ : ascii "\"stringValue\":" = quoted "stringValue" ++ [58] := by decide
  have h₆ : ascii "\"intValue\":" = quoted "intValue" ++ [58] := by decide
  have h₇ : ascii ",\"eventName\":" = 44 :: (quoted "eventName" ++ [58]) := by decide
  have hseverity : (if r.severity ≠ 0 then r.severity.toInt64 else 9).toInt =
      if r.severity ≠ 0 then r.severity.toInt else 9 := by
    split
    · exact Int32.toInt_toInt64 _
    · rfl
  simp only [jwLogRecord, jwU64q_render, jwInt_render, jwI64q_render, jwJstr_render, jwCh_eq,
    jwRaw_append, h₁, h₂, h₃, h₄, h₅, h₆, h₇, hseverity, logTree, nonempty, optional]
  cases r.bodyIsStr <;> by_cases hevent : (chars r.eventName).getD [] = [] <;>
    simp [hevent, jwRaw_append, render, renderFields]

theorem jwCodeAttrs_eq (m : OtlpMethodMeta) (w : Jw) :
    jwCodeAttrs (chars m.method) (chars m.file) m.line w =
      jwRaw (ascii "\"attributes\":[" ++ renderElems (codeTrees m) ++ [93]) w := by
  have h₁ : ascii "\x7b\"key\":\"code.function\",\"value\":\x7b\"stringValue\":" =
      123 :: (quoted "key" ++ 58 :: (quoted "code.function" ++
        44 :: (quoted "value" ++ 58 :: 123 :: (quoted "stringValue" ++ [58])))) := by decide
  have h₂ : ascii ",\x7b\"key\":\"code.filepath\",\"value\":\x7b\"stringValue\":" =
      44 :: 123 :: (quoted "key" ++ 58 :: (quoted "code.filepath" ++
        44 :: (quoted "value" ++ 58 :: 123 :: (quoted "stringValue" ++ [58])))) := by decide
  have h₃ : ascii ",\x7b\"key\":\"code.lineno\",\"value\":\x7b\"intValue\":" =
      44 :: 123 :: (quoted "key" ++ 58 :: (quoted "code.lineno" ++
        44 :: (quoted "value" ++ 58 :: 123 :: (quoted "intValue" ++ [58])))) := by decide
  simp only [jwCodeAttrs, jwI64q_render, jwJstr_render, jwRaw_append, h₁, h₂, h₃, ascii_braces,
    ascii_bracket, codeTrees, nonempty, Int32.toInt_toInt64]
  by_cases hfile : (chars m.file).getD [] = [] <;> by_cases hline : 0 < m.line <;>
    simp [hfile, hline, jwRaw_append, kvTree, render, renderFields, renderElems]

theorem jwSpan_eq (metas : List OtlpMethodMeta) (s : Traces.Span) (w : Jw) :
    jwSpan metas s w = jwRaw (render (spanTree metas s)) w := by
  have h₁ : ascii "\x7b\"traceId\":" = 123 :: (quoted "traceId" ++ [58]) := by decide
  have h₂ : ascii ",\"spanId\":" = 44 :: (quoted "spanId" ++ [58]) := by decide
  have h₃ : ascii ",\"parentSpanId\":" = 44 :: (quoted "parentSpanId" ++ [58]) := by decide
  have h₄ : ascii ",\"name\":" = 44 :: (quoted "name" ++ [58]) := by decide
  have h₅ : ascii ",\"kind\":1" = 44 :: (quoted "kind" ++ 58 :: signed 1) := by decide
  have h₆ : ascii ",\"startTimeUnixNano\":" =
      44 :: (quoted "startTimeUnixNano" ++ [58]) := by decide
  have h₇ : ascii ",\"endTimeUnixNano\":" = 44 :: (quoted "endTimeUnixNano" ++ [58]) := by decide
  simp only [jwSpan, jwHex_render, jwU64q_render, jwJstr_render, jwCodeAttrs_eq, jwCh_eq,
    jwRaw_append, h₁, h₂, h₃, h₄, h₅, h₆, h₇, ascii_attributes, spanTree, spanName, methodOf,
    optional]
  cases s.hasParent <;> cases metas.find? (fun m => m.idx = s.methodIdx) <;>
    simp [jwRaw_append, render, renderFields, render_intTree]

theorem jwSumPoint_eq (t start : UInt64) (x : OtlpSeries) (w : Jw) :
    (w |> jwRaw (ascii "\x7b\"startTimeUnixNano\":") |> jwU64q start |>
      jwRaw (ascii ",\"timeUnixNano\":") |> jwU64q t |>
      jwRaw (ascii ",\"asInt\":") |> jwI64q x.count.toInt64 |>
      jwCh 44 |> jwLabels x.labels |> jwCh 125) = jwRaw (render (pointTree t start x)) w := by
  have h₁ : ascii ",\"asInt\":" = 44 :: (quoted "asInt" ++ [58]) := by decide
  simp only [jwU64q_render, jwI64q_render, jwLabels_eq, jwCh_eq, jwRaw_append, ascii_startTime,
    ascii_time, h₁, ascii_attributes, ascii_bracket, pointTree, render, renderFields,
    List.append_assoc, List.cons_append, List.nil_append]

theorem listed_jwSumPoint (t start : UInt64) (w : Jw) (series : List OtlpSeries) :
    (series.foldl (jwSumPoint t start) (true, w)).2 =
      jwRaw (renderElems ((counting series).map (pointTree t start))) w := by
  have hstart : Listed w [] (true, w) := ⟨rfl, rfl⟩
  have hrun : Listed w ([] ++ (series.filter fun x => decide (x.count ≠ 0)).map fun x =>
      render (pointTree t start x)) (series.foldl (jwSumPoint t start) (true, w)) := by
    refine hstart.foldl (fun s x hx => ?_) (fun s x hx => ?_) series
    · exact if_pos (not_not.mp (of_decide_eq_false hx))
    · rw [jwSumPoint, if_neg (of_decide_eq_true hx)]
      exact congrArg (Prod.mk false) (jwSumPoint_eq t start x _)
  rw [hrun.writer, List.nil_append, renderElems_map fun _ => rfl]
  rfl

/-- A request is its resource, its scope and its elements in between. -/
theorem render_requestTree (c : Context) (top scopes items : String) (xs : List Value) :
    render (requestTree c top scopes items xs) =
      123 :: (quoted top ++ [58, 91, 123]) ++ (ascii "\"resource\":\x7b\"attributes\":[" ++
        renderElems (c.resource.map kvTree) ++ ascii "]\x7d") ++
      (44 :: (quoted scopes ++ [58, 91, 123])) ++
      (ascii "\"scope\":\x7b\"name\":" ++ quote c.scopeName ++ ascii "\x7d") ++
      (44 :: (quoted items ++ [58, 91])) ++ renderElems xs ++ ascii "]\x7d]\x7d]\x7d" := by
  have h₁ : ascii "]\x7d]\x7d]\x7d" = [93, 125, 93, 125, 93, 125] := by decide
  simp only [requestTree, render, renderFields, renderElems, ascii_resource, ascii_bracketBrace,
    ascii_scope, ascii_brace, h₁, List.append_assoc, List.cons_append, List.nil_append]

def logsTree (c : Context) (recs : List OtlpLogRecord) : Value :=
  requestTree c "resourceLogs" "scopeLogs" "logRecords" (recs.map logTree)

def spansTree (c : Context) (spans : List Traces.Span) (metas : List OtlpMethodMeta) : Value :=
  requestTree c "resourceSpans" "scopeSpans" "spans" (spans.map (spanTree metas))

def sumsTree (c : Context) (name unit : Option CString) (t start : UInt64)
    (series : List OtlpSeries) : Value :=
  requestTree c "resourceMetrics" "scopeMetrics" "metrics" [sumTree name unit t start series]

theorem otlpJsonLogsBuild_eq (buf : Mem) (cap : Capacity) (c : Context)
    (recs : List OtlpLogRecord) :
    otlpJsonLogsBuild buf cap c recs =
      (jwRaw (render (logsTree c recs)) ⟨buf, cap, 0, true⟩).result := by
  have h₁ : ascii "\x7b\"resourceLogs\":[\x7b" =
      123 :: (quoted "resourceLogs" ++ [58, 91, 123]) := by decide
  have h₂ : ascii ",\"scopeLogs\":[\x7b" = 44 :: (quoted "scopeLogs" ++ [58, 91, 123]) := by decide
  have h₃ : ascii ",\"logRecords\":[" = 44 :: (quoted "logRecords" ++ [58, 91]) := by decide
  rw [logsTree, render_requestTree, otlpJsonLogsBuild, jwLoop_render jwLogRecord_eq, h₁, h₂, h₃,
    jwResource_eq, jwScope_eq]
  simp only [jwRaw_append]

theorem otlpJsonTracesBuild_eq (buf : Mem) (cap : Capacity) (c : Context)
    (spans : List Traces.Span) (metas : List OtlpMethodMeta) :
    otlpJsonTracesBuild buf cap c spans metas =
      (jwRaw (render (spansTree c spans metas)) ⟨buf, cap, 0, true⟩).result := by
  have h₁ : ascii "\x7b\"resourceSpans\":[\x7b" =
      123 :: (quoted "resourceSpans" ++ [58, 91, 123]) := by decide
  have h₂ : ascii ",\"scopeSpans\":[\x7b" = 44 :: (quoted "scopeSpans" ++ [58, 91, 123]) := by
    decide
  have h₃ : ascii ",\"spans\":[" = 44 :: (quoted "spans" ++ [58, 91]) := by decide
  rw [spansTree, render_requestTree, otlpJsonTracesBuild, jwLoop_render (jwSpan_eq metas), h₁, h₂,
    h₃, jwResource_eq, jwScope_eq]
  simp only [jwRaw_append]

theorem otlpJsonMetricsSumBuild_eq (buf : Mem) (cap : Capacity) (c : Context)
    (name unit : Option CString) (t start : UInt64) (series : List OtlpSeries) :
    otlpJsonMetricsSumBuild buf cap c name unit t start series =
      (jwRaw (render (sumsTree c name unit t start series)) ⟨buf, cap, 0, true⟩).result := by
  have h₁ : ascii ",\"metrics\":[" = 44 :: (quoted "metrics" ++ [58, 91]) := by decide
  have h₂ : ascii "\x7b\"name\":" = 123 :: (quoted "name" ++ [58]) := by decide
  have h₃ : ascii ",\"sum\":\x7b\"dataPoints\":[" =
      44 :: (quoted "sum" ++ 58 :: 123 :: (quoted "dataPoints" ++ [58, 91])) := by decide
  have h₄ : ascii "],\"aggregationTemporality\":2,\"isMonotonic\":true\x7d\x7d" =
      93 :: 44 :: (quoted "aggregationTemporality" ++ 58 :: (signed 2 ++
        44 :: (quoted "isMonotonic" ++ 58 :: (ascii "true" ++ [125, 125])))) := by decide
  simp only [sumsTree, render_requestTree, renderElems, otlpJsonMetricsSumBuild, listed_jwSumPoint,
    jwJstr_render, ascii_resourceMetrics, ascii_scopeMetrics, h₁, h₂, ascii_unit, h₃, h₄,
    jwResource_eq, jwScope_eq, jwRaw_append, sumTree, optional, nonempty]
  by_cases hunit : (chars unit).getD [] = [] <;>
    simp [hunit, jwRaw_append, render, renderFields, render_intTree, Literal.text]

/-! ### Reading -/

/-- A request, as a reader has it. -/
structure Request (α : Type) where
  resource : List (Text × Text)
  scope : Text
  items : List α

/-- The one element of the member `k`. -/
def only (k : String) (v : Value) : Option Value :=
  match member k v with
  | some (.arr [x]) => some x
  | _ => none

/-- A request whose elements `item` reads. -/
def jsonRequest {α : Type} (top scopes items : String) (item : Value → Option α) (t : Text) :
    Option (Request α) := do
  let r ← parse t >>= only top
  let resource ← member "resource" r >>= member "attributes" >>= elements >>= List.mapM jsonAttribute
  let s ← only scopes r
  let scope ← member "scope" s >>= member "name" >>= text
  let xs ← member items s >>= elements >>= List.mapM item
  some ⟨resource, scope, xs⟩

/-- A member that may be missing. -/
def maybe {α : Type} (read : Value → Option α) : Option Value → Option (Option α)
  | none   => some none
  | some v => (read v).map some

/-- A signed 64-bit integer, which the JSON mapping writes as a string. -/
def i64 : Value → Option Int64
  | .str s => do
      let n ← ofSigned s
      if -2 ^ 63 ≤ n ∧ n < 2 ^ 63 then some (Int64.ofInt n) else none
  | _ => none

/-- A number without a point or an exponent. -/
def integer : Value → Option Int
  | .num n => ofSigned n.text
  | _      => none

def bool : Value → Option Bool
  | .lit .tt => some true
  | .lit .ff => some false
  | _        => none

/-- The bytes of pairs of hexadecimal digits. -/
def hexBytes : Text → Option (List UInt8)
  | [] => some []
  | a :: b :: rest => do
      let x ← hexValue a
      let y ← hexValue b
      let bs ← hexBytes rest
      some (UInt8.ofNat (16 * x + y) :: bs)
  | _ => none

def hex (v : Value) : Option (List UInt8) := text v >>= hexBytes

/-- `AnyValue`: a string or an integer. -/
inductive AnyValue where
  | string (s : Text)
  | int (v : Int64)

def anyValue (v : Value) : Option AnyValue :=
  match member "stringValue" v with
  | some s => (text s).map .string
  | none   => (member "intValue" v >>= i64).map .int

/-- A log record. -/
structure LogData where
  time : UInt64
  observedTime : UInt64
  severityNumber : Int
  severityText : Text
  body : AnyValue
  eventName : Option Text

def jsonLog (v : Value) : Option LogData := do
  let time ← member "timeUnixNano" v >>= u64
  let observedTime ← member "observedTimeUnixNano" v >>= u64
  let severityNumber ← member "severityNumber" v >>= integer
  let severityText ← member "severityText" v >>= text
  let body ← member "body" v >>= anyValue
  let eventName ← maybe text (member "eventName" v)
  some ⟨time, observedTime, severityNumber, severityText, body, eventName⟩

def jsonLogs : Text → Option (Request LogData) :=
  jsonRequest "resourceLogs" "scopeLogs" "logRecords" jsonLog

/-- An attribute. -/
def anyAttribute (v : Value) : Option (Text × AnyValue) := do
  let k ← member "key" v >>= text
  let x ← member "value" v >>= anyValue
  some (k, x)

def attributes (v : Value) : Option (List (Text × AnyValue)) :=
  elements v >>= List.mapM anyAttribute

/-- A span. -/
structure SpanData where
  traceId : List UInt8
  spanId : List UInt8
  parentSpanId : Option (List UInt8)
  name : Text
  kind : Int
  startTime : UInt64
  endTime : UInt64
  attributes : Option (List (Text × AnyValue))

def jsonSpan (v : Value) : Option SpanData := do
  let traceId ← member "traceId" v >>= hex
  let spanId ← member "spanId" v >>= hex
  let parentSpanId ← maybe hex (member "parentSpanId" v)
  let name ← member "name" v >>= text
  let kind ← member "kind" v >>= integer
  let startTime ← member "startTimeUnixNano" v >>= u64
  let endTime ← member "endTimeUnixNano" v >>= u64
  let attrs ← maybe attributes (member "attributes" v)
  some ⟨traceId, spanId, parentSpanId, name, kind, startTime, endTime, attrs⟩

def jsonSpans : Text → Option (Request SpanData) :=
  jsonRequest "resourceSpans" "scopeSpans" "spans" jsonSpan

/-- A point of a sum. -/
structure PointData where
  startTime : UInt64
  time : UInt64
  asInt : Int
  attributes : List (Text × Text)

def jsonPoint (v : Value) : Option PointData := do
  let startTime ← member "startTimeUnixNano" v >>= u64
  let time ← member "timeUnixNano" v >>= u64
  let asInt ← member "asInt" v >>= i64
  let attributes ← member "attributes" v >>= elements >>= List.mapM jsonAttribute
  some ⟨startTime, time, asInt.toInt, attributes⟩

/-- A metric that is a sum. -/
structure SumData where
  name : Text
  unit : Option Text
  points : List PointData
  temporality : Int
  monotonic : Bool

def jsonSum (v : Value) : Option SumData := do
  let name ← member "name" v >>= text
  let unit ← maybe text (member "unit" v)
  let sum ← member "sum" v
  let points ← member "dataPoints" sum >>= elements >>= List.mapM jsonPoint
  let temporality ← member "aggregationTemporality" sum >>= integer
  let monotonic ← member "isMonotonic" sum >>= bool
  some ⟨name, unit, points, temporality, monotonic⟩

def jsonSums : Text → Option (Request SumData) :=
  jsonRequest "resourceMetrics" "scopeMetrics" "metrics" jsonSum

/-! ### What is read -/

def logData (r : OtlpLogRecord) : LogData where
  time := r.timeUnixNs
  observedTime := r.timeUnixNs
  severityNumber := if r.severity ≠ 0 then r.severity.toInt else 9
  severityText := ascii "INFO"
  body := if r.bodyIsStr then .string ((chars r.bodyStr).getD []) else .int r.bodyInt
  eventName := nonempty r.eventName

def codeData (m : OtlpMethodMeta) : List (Text × AnyValue) :=
  [(ascii "code.function", .string ((chars m.method).getD []))] ++
    ((nonempty m.file).map fun f => (ascii "code.filepath", AnyValue.string f)).toList ++
    if 0 < m.line then [(ascii "code.lineno", .int m.line.toInt64)] else []

def spanData (metas : List OtlpMethodMeta) (s : Traces.Span) : SpanData where
  traceId := s.traceId.take 16
  spanId := s.spanId.take 8
  parentSpanId := if s.hasParent then some (s.parentSpanId.take 8) else none
  name := spanName metas s
  kind := 1
  startTime := s.startUnixNs
  endTime := s.endUnixNs
  attributes := (methodOf metas s).map codeData

def pointData (t start : UInt64) (x : OtlpSeries) : PointData where
  startTime := start
  time := t
  asInt := x.count.toNat
  attributes := x.labels.map labelPair

def sumData (name unit : Option CString) (t start : UInt64) (series : List OtlpSeries) :
    SumData where
  name := (chars name).getD []
  unit := nonempty unit
  points := (counting series).map (pointData t start)
  temporality := 2
  monotonic := true

theorem i64_i64Tree (v : Int64) : i64 (i64Tree v.toInt) = some v := by
  have hlo := v.le_toInt
  have hhi := v.toInt_lt
  rw [i64Tree, i64, ofSigned_signed, Option.bind_eq_bind, Option.bind_some, if_pos ⟨hlo, hhi⟩,
    Int64.ofInt_toInt]

theorem integer_intTree (v : Int) : integer (intTree v) = some v := ofSigned_signed v

theorem hexBytes_flatMap (bs : List UInt8) : hexBytes (bs.flatMap hexPair) = some bs := by
  have hbyte : ∀ b : UInt8, hexValue (hexDigit (b / 16)) = some (b / 16).toNat ∧
      hexValue (hexDigit (b % 16)) = some (b % 16).toNat ∧
      UInt8.ofNat (16 * (b / 16).toNat + (b % 16).toNat) = b := by decide +kernel
  induction bs with
  | nil => rfl
  | cons b bs ih =>
      obtain ⟨hhigh, hlow, hvalue⟩ := hbyte b
      rw [List.flatMap_cons, hexPair, List.cons_append, List.cons_append, List.nil_append, hexBytes,
        hhigh, hlow, ih]
      simp only [Option.bind_eq_bind, Option.bind_some, hvalue]

theorem hex_hexTree (bs : List UInt8) : hex (hexTree bs) = some bs := hexBytes_flatMap bs

theorem maybe_text (x : Option Text) : maybe text (x.map .str) = some x := by
  cases x <;> rfl

/-- **A record is read.** -/
theorem jsonLog_logTree (r : OtlpLogRecord) : jsonLog (logTree r) = some (logData r) := by
  have htime : member "timeUnixNano" (logTree r) = some (u64Tree r.timeUnixNs) := rfl
  have hobserved : member "observedTimeUnixNano" (logTree r) = some (u64Tree r.timeUnixNs) := rfl
  have hseverity : member "severityNumber" (logTree r) =
      some (intTree (if r.severity ≠ 0 then r.severity.toInt else 9)) := rfl
  have hinfo : member "severityText" (logTree r) = some (.str (ascii "INFO")) := rfl
  have hbody : (member "body" (logTree r) >>= anyValue) = some (logData r).body := by
    rw [logTree, logData]
    cases r.bodyIsStr with
    | true => rfl
    | false => exact congrArg (Option.map AnyValue.int) (i64_i64Tree r.bodyInt)
  have hevent : member "eventName" (logTree r) = (nonempty r.eventName).map .str := by
    rw [logTree]
    cases nonempty r.eventName <;> rfl
  simp only [jsonLog, htime, hobserved, hseverity, hinfo, hbody, hevent, Option.bind_eq_bind,
    Option.bind_some, u64_u64Tree, integer_intTree, text, maybe_text]
  rfl

theorem anyAttribute_kvTree (k v : Text) :
    anyAttribute (kvTree (k, v)) = some (k, .string v) := rfl

theorem anyAttribute_codeTrees (m : OtlpMethodMeta) :
    (codeTrees m).mapM anyAttribute = some (codeData m) := by
  have hline : anyAttribute (.obj [(ascii "key", .str (ascii "code.lineno")),
      (ascii "value", .obj [(ascii "intValue", i64Tree m.line.toInt)])]) =
      some (ascii "code.lineno", .int m.line.toInt64) := by
    have hread := i64_i64Tree m.line.toInt64
    rw [Int32.toInt_toInt64] at hread
    exact congrArg (fun x => x.map AnyValue.int >>= fun v => some (ascii "code.lineno", v)) hread
  rw [codeTrees, codeData]
  cases nonempty m.file <;> by_cases hpos : 0 < m.line <;>
    simp [hpos, hline, anyAttribute_kvTree]

/-- **A span is read.** -/
theorem jsonSpan_spanTree (metas : List OtlpMethodMeta) (s : Traces.Span) :
    jsonSpan (spanTree metas s) = some (spanData metas s) := by
  have htrace : member "traceId" (spanTree metas s) = some (hexTree (s.traceId.take 16)) := rfl
  have hspan : member "spanId" (spanTree metas s) = some (hexTree (s.spanId.take 8)) := rfl
  have hparent : maybe hex (member "parentSpanId" (spanTree metas s)) =
      some (spanData metas s).parentSpanId := by
    rw [spanTree, spanData]
    cases s.hasParent with
    | true => exact congrArg (Option.map some) (hex_hexTree (s.parentSpanId.take 8))
    | false => cases methodOf metas s <;> rfl
  have hname : member "name" (spanTree metas s) = some (.str (spanName metas s)) := by
    rw [spanTree]
    cases s.hasParent <;> rfl
  have hkind : member "kind" (spanTree metas s) = some (intTree 1) := by
    rw [spanTree]
    cases s.hasParent <;> rfl
  have hstart : member "startTimeUnixNano" (spanTree metas s) = some (u64Tree s.startUnixNs) := by
    rw [spanTree]
    cases s.hasParent <;> rfl
  have hend : member "endTimeUnixNano" (spanTree metas s) = some (u64Tree s.endUnixNs) := by
    rw [spanTree]
    cases s.hasParent <;> rfl
  have hattributes : member "attributes" (spanTree metas s) =
      (methodOf metas s).map fun m => .arr (codeTrees m) := by
    rw [spanTree]
    cases s.hasParent <;> cases methodOf metas s <;> rfl
  have hcode : maybe attributes ((methodOf metas s).map fun m => .arr (codeTrees m)) =
      some ((methodOf metas s).map codeData) := by
    cases methodOf metas s with
    | none => rfl
    | some m => exact congrArg (Option.map some) (anyAttribute_codeTrees m)
  simp only [jsonSpan, htrace, hspan, hparent, hname, hkind, hstart, hend, hattributes, hcode,
    Option.bind_eq_bind, Option.bind_some, hex_hexTree, text, integer_intTree, u64_u64Tree]
  rfl

/-- **A point is read**, as long as its count is that of a signed integer. -/
theorem jsonPoint_pointTree (t start : UInt64) {x : OtlpSeries} (h : x.count.toNat < 2 ^ 63) :
    jsonPoint (pointTree t start x) = some (pointData t start x) := by
  have hstart : member "startTimeUnixNano" (pointTree t start x) = some (u64Tree start) := rfl
  have htime : member "timeUnixNano" (pointTree t start x) = some (u64Tree t) := rfl
  have hint : member "asInt" (pointTree t start x) = some (i64Tree x.count.toInt64.toInt) := rfl
  have hlabels : member "attributes" (pointTree t start x) =
      some (.arr ((x.labels.map labelPair).map kvTree)) := rfl
  have hcount : x.count.toInt64.toInt = x.count.toNat := by
    exact BitVec.toInt_eq_toNat_of_lt (by
      change 2 * x.count.toNat < 2 ^ 64
      omega)
  simp only [jsonPoint, hstart, htime, hint, hlabels, elements, Option.bind_eq_bind,
    Option.bind_some, u64_u64Tree, i64_i64Tree, mapM_map_eq fun kv _ => jsonAttribute_kvTree kv,
    List.map_id']
  rw [hcount, pointData]

/-- **A sum is read.** -/
theorem jsonSum_sumTree (name unit : Option CString) (t start : UInt64) {series : List OtlpSeries}
    (h : ∀ x ∈ series, x.count.toNat < 2 ^ 63) :
    jsonSum (sumTree name unit t start series) = some (sumData name unit t start series) := by
  have hname : member "name" (sumTree name unit t start series) =
      some (.str ((chars name).getD [])) := rfl
  have hunit : member "unit" (sumTree name unit t start series) = (nonempty unit).map .str := by
    rw [sumTree]
    cases nonempty unit <;> rfl
  have hsum : member "sum" (sumTree name unit t start series) =
      some (.obj [(ascii "dataPoints", .arr ((counting series).map (pointTree t start))),
        (ascii "aggregationTemporality", intTree 2), (ascii "isMonotonic", .lit .tt)]) := by
    rw [sumTree]
    cases nonempty unit <;> rfl
  have hpoints : ((counting series).map (pointTree t start)).mapM jsonPoint =
      some ((counting series).map (pointData t start)) :=
    mapM_map_eq fun x hx => jsonPoint_pointTree t start (h x (List.mem_of_mem_filter hx))
  simp only [jsonSum, hname, hunit, hsum, Option.bind_eq_bind, Option.bind_some, text, maybe_text]
  exact congrArg (fun ps => ps >>= fun ps => some (SumData.mk _ _ ps 2 true)) hpoints

/-- A request is read as its elements are. -/
theorem jsonRequest_requestTree {α : Type} (c : Context) (top scopes items : String)
    {item : Value → Option α} {xs : List Value} {ys : List α} (h : xs.mapM item = some ys)
    (hitems : ascii items ≠ ascii "scope") (hscopes : ascii scopes ≠ ascii "resource") :
    jsonRequest top scopes items item (render (requestTree c top scopes items xs)) =
      some ⟨c.resource, c.scopeName, ys⟩ := by
  have hresource : (c.resource.map kvTree).mapM jsonAttribute = some c.resource := by
    rw [mapM_map_eq fun kv _ => jsonAttribute_kvTree kv, List.map_id']
  rw [jsonRequest, parse_render, requestTree]
  simp [only, member, elements, text, hresource, h, hscopes.symm, hitems.symm]

/-! ### Faithful output -/

/-- There is one document, from which `reader` gets `x`, and the builder puts it into every buffer
that has room for it. -/
def Faithful {α : Type} (reader : Text → Option α) (x : α)
    (build : Mem → Capacity → Int × Mem) : Prop :=
  ∃ doc, reader doc = some x ∧ ∀ buf cap, Result buf cap doc (build buf cap)

theorem faithful_of_render {α : Type} {reader : Text → Option α} {x : α} {tree : Value}
    {build : Mem → Capacity → Int × Mem} (hread : reader (render tree) = some x)
    (hbuild : ∀ buf cap, build buf cap = (jwRaw (render tree) ⟨buf, cap, 0, true⟩).result) :
    Faithful reader x build := by
  refine ⟨render tree, hread, fun buf cap => ?_⟩
  rw [hbuild buf cap]
  exact result_jwRaw buf cap _

/-- **JSON output is faithful.**  For all logs, spans and sums and every buffer: nothing is stored
at or beyond the capacity, the result is -1 exactly when the document is longer than that, and
otherwise the bytes are a document in which a reader finds what was given. -/
theorem json_faithful (c : Context) :
    (∀ recs, Faithful jsonLogs ⟨c.resource, c.scopeName, recs.map logData⟩
      fun buf cap => otlpJsonLogsBuild buf cap c recs) ∧
    (∀ spans metas, Faithful jsonSpans ⟨c.resource, c.scopeName, spans.map (spanData metas)⟩
      fun buf cap => otlpJsonTracesBuild buf cap c spans metas) ∧
    ∀ name unit t start series, (∀ x ∈ series, x.count.toNat < 2 ^ 63) →
      Faithful jsonSums ⟨c.resource, c.scopeName, [sumData name unit t start series]⟩
        fun buf cap => otlpJsonMetricsSumBuild buf cap c name unit t start series := by
  refine ⟨fun recs => ?_, fun spans metas => ?_, fun name unit t start series h => ?_⟩
  · have hlogs := mapM_map_eq fun r (_ : r ∈ recs) => jsonLog_logTree r
    exact faithful_of_render
      (jsonRequest_requestTree c _ _ _ hlogs (by decide) (by decide))
      fun buf cap => otlpJsonLogsBuild_eq buf cap c recs
  · have hspans := mapM_map_eq fun s (_ : s ∈ spans) => jsonSpan_spanTree metas s
    exact faithful_of_render
      (jsonRequest_requestTree c _ _ _ hspans (by decide) (by decide))
      fun buf cap => otlpJsonTracesBuild_eq buf cap c spans metas
  · have hsum : [sumTree name unit t start series].mapM jsonSum =
        some [sumData name unit t start series] := by
      rw [List.mapM_cons, jsonSum_sumTree name unit t start h, List.mapM_nil]
      rfl
    exact faithful_of_render
      (jsonRequest_requestTree c _ _ _ hsum (by decide) (by decide))
      fun buf cap => otlpJsonMetricsSumBuild_eq buf cap c name unit t start series

theorem quoted_noNul : 0 ∉ ascii "a\"b\n" := by decide

/-- A service whose name has a quote and a line feed in it. -/
def quotedService : Context where
  svc := some ⟨ascii "a\"b\n", quoted_noNul⟩
  ver := none
  scope := none
  serviceInstanceId := ⟨ascii "a\"b\n", quoted_noNul⟩
  resourceAttributes := none

theorem json_faithful_quoted :
    Faithful jsonSums ⟨quotedService.resource, quotedService.scopeName,
      [sumData quotedService.svc none 2 1 [⟨3, []⟩, ⟨0, []⟩]]⟩
      fun buf cap => otlpJsonMetricsSumBuild buf cap quotedService quotedService.svc none 2 1
        [⟨3, []⟩, ⟨0, []⟩] :=
  (json_faithful quotedService).2.2 _ _ _ _ _ (by decide)

end SpinelEbpf.Otlp.JsonWriter

import SpinelEbpf.Otlp.EnvList
import SpinelEbpf.Otlp.HeaderBlock
import SpinelEbpf.Otlp.Histogram
import SpinelEbpf.Otlp.Traces

/-!
# Otlp — JSON in a fixed buffer

`otlp_json.c` writes a request byte by byte.  `jw_ch` stores a byte if there is room, notes that
there was none otherwise, and counts in either case; a builder returns the count, or -1 if anything
did not fit.  Here are the writer and the builders for logs, spans and sums, as they pass the writer
on.

All of them write some text and do nothing else (`jwRaw_append` and the lemmas that end in `_eq`),
and `Written` says what the buffer holds after a text.  `JsonData` says what the texts are.
-/

namespace SpinelEbpf.Otlp.JsonWriter
open Bytes Json Number
open CString (Str snprintf snprintf_of_lt)
open EnvList (CString OtlpKv otlpEnvKvList)
open HeaderBlock (Capacity)
open Histogram (commas)

/-! ### The writer -/

/-- `jw_t`. -/
structure Jw where
  p : Mem
  cap : Capacity
  n : Nat
  ok : Bool

/-- `jw_ch`; the count is a `size_t`. -/
def jwCh (c : UInt8) (w : Jw) : Jw :=
  let w := if w.n < w.cap.val then { w with p := Function.update w.p w.n c }
    else { w with ok := false }
  { w with n := (w.n + 1) % 2 ^ 64 }

/-- `jw_raw`. -/
def jwRaw (s : Text) (w : Jw) : Jw := s.foldl (fun w c => jwCh c w) w

/-- `%04x` of a byte. -/
def hex4 (c : UInt8) : Text := [48, 48, hexDigit (c / 16), hexDigit (c % 16)]

/-- One round of `jw_jstr`. -/
def jwEscaped (w : Jw) (c : UInt8) : Jw :=
  if c = 34 ∨ c = 92 then jwCh c (jwCh 92 w)
  else if c = 10 then jwRaw (ascii "\\n") w
  else if c = 13 then jwRaw (ascii "\\r") w
  else if c = 9 then jwRaw (ascii "\\t") w
  else if c < 0x20 then jwRaw (snprintf 8 (ascii "\\u" ++ hex4 c)) w
  else jwCh c w

/-- `jw_jstr`; the pointer may be `NULL`. -/
def jwJstr (s : Option Text) (w : Jw) : Jw := jwCh 34 ((s.getD []).foldl jwEscaped (jwCh 34 w))

/-- `jw_u64q`. -/
def jwU64q (v : UInt64) : Jw → Jw := jwRaw (snprintf 24 (34 :: (decimal v.toNat ++ [34])))

/-- `jw_i64q`. -/
def jwI64q (v : Int64) : Jw → Jw := jwRaw (snprintf 24 (34 :: (signed v.toInt ++ [34])))

/-- `jw_int`. -/
def jwInt (v : Int64) : Jw → Jw := jwRaw (snprintf 24 (signed v.toInt))

/-- One round of `jw_hex`. -/
def jwHexByte (w : Jw) (c : UInt8) : Jw :=
  let h := ascii "0123456789abcdef"
  jwCh (h.getD (c &&& 0xf).toNat 0) (jwCh (h.getD (c >>> 4).toNat 0) w)

/-- `jw_hex` of the first `n` bytes. -/
def jwHex (b : List UInt8) (n : Nat) (w : Jw) : Jw :=
  jwCh 34 ((b.take n).foldl jwHexByte (jwCh 34 w))

/-! ### Resource, scope and attributes -/

/-- What every builder is given: the service, the scope, the instance id and the environment. -/
structure Context where
  svc : Option CString
  ver : Option CString
  scope : Option CString
  serviceInstanceId : CString
  /-- `OTEL_RESOURCE_ATTRIBUTES`. -/
  resourceAttributes : Option CString

/-- The bytes behind a pointer that is not `NULL`. -/
def chars (s : Option CString) : Option Text := s.map Str.bytes

/-- `jw_res_kv`, with its `first` flag. -/
def jwResKv (s : Bool × Jw) (k : Text) (v : Option Text) : Bool × Jw :=
  if v.getD [] = [] then s
  else
    let w := if s.1 then s.2 else jwCh 44 s.2
    let w := w |> jwRaw (ascii "\x7b\"key\":") |> jwJstr (some k)
    (false, w |> jwRaw (ascii ",\"value\":\x7b\"stringValue\":") |> jwJstr v |>
      jwRaw (ascii "\x7d\x7d"))

/-- `OTLP_ENV_RESOURCE_ATTRS_MAX`. -/
def maxResourceAttrs : Int := 16

/-- The pairs of the environment. -/
def Context.envPairs (c : Context) : List OtlpKv :=
  EnvList.stored (otlpEnvKvList c.resourceAttributes (fun _ => ⟨[], []⟩) maxResourceAttrs)

/-- `jw_resource`. -/
def jwResource (c : Context) (w : Jw) : Jw :=
  let s := (true, jwRaw (ascii "\"resource\":\x7b\"attributes\":[") w)
  let s := jwResKv s (ascii "service.name") (chars c.svc)
  let s := jwResKv s (ascii "service.version") (chars c.ver)
  let s := jwResKv s (ascii "service.instance.id") (some c.serviceInstanceId.bytes)
  let s := jwResKv s (ascii "telemetry.sdk.name") (some (ascii "spinel-ebpf"))
  let s := jwResKv s (ascii "telemetry.sdk.language") (some (ascii "ruby"))
  let s := jwResKv s (ascii "telemetry.sdk.version") (some (ascii "0"))
  let s := c.envPairs.foldl (fun s kv => jwResKv s kv.key (some kv.val)) s
  jwRaw (ascii "]\x7d") s.2

/-- `jw_scope`. -/
def jwScope (c : Context) (w : Jw) : Jw :=
  w |> jwRaw (ascii "\"scope\":\x7b\"name\":") |>
    jwJstr (some ((chars c.scope).getD (ascii "spinel-ebpf"))) |> jwRaw (ascii "\x7d")

/-- A loop that writes a comma before every element but that with index 0. -/
def jwLoop {α : Type} (item : α → Jw → Jw) : Nat → List α → Jw → Jw
  | _, [], w      => w
  | i, x :: xs, w => jwLoop item (i + 1) xs (item x (if i ≠ 0 then jwCh 44 w else w))

/-- A round of the loop over the labels. -/
def jwLabel (kv : CString × CString) (w : Jw) : Jw :=
  w |> jwRaw (ascii "\x7b\"key\":") |> jwJstr (some kv.1.bytes) |>
    jwRaw (ascii ",\"value\":\x7b\"stringValue\":") |> jwJstr (some kv.2.bytes) |>
    jwRaw (ascii "\x7d\x7d")

/-- `jw_labels`. -/
def jwLabels (labels : List (CString × CString)) (w : Jw) : Jw :=
  w |> jwRaw (ascii "\"attributes\":[") |> jwLoop jwLabel 0 labels |> jwRaw (ascii "]")

/-- `jw_code_attrs`. -/
def jwCodeAttrs (fn file : Option Text) (line : Int32) (w : Jw) : Jw :=
  let w := w |> jwRaw (ascii "\"attributes\":[") |>
    jwRaw (ascii "\x7b\"key\":\"code.function\",\"value\":\x7b\"stringValue\":") |>
    jwJstr (some (fn.getD [])) |> jwRaw (ascii "\x7d\x7d")
  let w := if file.getD [] = [] then w
    else w |> jwRaw (ascii ",\x7b\"key\":\"code.filepath\",\"value\":\x7b\"stringValue\":") |>
      jwJstr file |> jwRaw (ascii "\x7d\x7d")
  let w := if 0 < line then
      w |> jwRaw (ascii ",\x7b\"key\":\"code.lineno\",\"value\":\x7b\"intValue\":") |>
        jwI64q line.toInt64 |> jwRaw (ascii "\x7d\x7d")
    else w
  jwRaw (ascii "]") w

/-! ### The builders -/

/-- `return w.ok ? (long)w.n : -1`, and the buffer. -/
def Jw.result (w : Jw) : Int × Mem := (if w.ok then (w.n : Int).bmod (2 ^ 64) else -1, w.p)

/-- `otlp_log_record_t`. -/
structure OtlpLogRecord where
  timeUnixNs : UInt64
  severity : Int32
  bodyIsStr : Bool
  bodyStr : Option CString
  bodyInt : Int64
  eventName : Option CString

/-- A round of the loop over the records. -/
def jwLogRecord (r : OtlpLogRecord) (w : Jw) : Jw :=
  let w := w |> jwRaw (ascii "\x7b\"timeUnixNano\":") |> jwU64q r.timeUnixNs |>
    jwRaw (ascii ",\"observedTimeUnixNano\":") |> jwU64q r.timeUnixNs |>
    jwRaw (ascii ",\"severityNumber\":") |>
    jwInt (if r.severity ≠ 0 then r.severity.toInt64 else 9) |>
    jwRaw (ascii ",\"severityText\":\"INFO\",\"body\":\x7b")
  let w := if r.bodyIsStr then
      w |> jwRaw (ascii "\"stringValue\":") |> jwJstr (some ((chars r.bodyStr).getD []))
    else w |> jwRaw (ascii "\"intValue\":") |> jwI64q r.bodyInt
  let w := jwCh 125 w
  let w := if (chars r.eventName).getD [] = [] then w
    else w |> jwRaw (ascii ",\"eventName\":") |> jwJstr (chars r.eventName)
  jwCh 125 w

/-- `otlp_json_logs_build`. -/
def otlpJsonLogsBuild (buf : Mem) (cap : Capacity) (c : Context) (recs : List OtlpLogRecord) :
    Int × Mem :=
  let w : Jw := ⟨buf, cap, 0, true⟩
  let w := w |> jwRaw (ascii "\x7b\"resourceLogs\":[\x7b") |> jwResource c |>
    jwRaw (ascii ",\"scopeLogs\":[\x7b") |> jwScope c |> jwRaw (ascii ",\"logRecords\":[")
  (w |> jwLoop jwLogRecord 0 recs |> jwRaw (ascii "]\x7d]\x7d]\x7d")).result

/-- `otlp_method_meta_t`. -/
structure OtlpMethodMeta where
  idx : Int32
  method : Option CString
  file : Option CString
  line : Int32

/-- A round of the loop over the spans. -/
def jwSpan (metas : List OtlpMethodMeta) (s : Traces.Span) (w : Jw) : Jw :=
  let m := metas.find? fun m => m.idx = s.methodIdx
  let w := w |> jwRaw (ascii "\x7b\"traceId\":") |> jwHex s.traceId 16 |>
    jwRaw (ascii ",\"spanId\":") |> jwHex s.spanId 8
  let w := if s.hasParent then
      w |> jwRaw (ascii ",\"parentSpanId\":") |> jwHex s.parentSpanId 8
    else w
  let w := w |> jwRaw (ascii ",\"name\":") |>
    jwJstr (some ((m.bind fun m => chars m.method).getD (ascii "?"))) |>
    jwRaw (ascii ",\"kind\":1") |>
    jwRaw (ascii ",\"startTimeUnixNano\":") |> jwU64q s.startUnixNs |>
    jwRaw (ascii ",\"endTimeUnixNano\":") |> jwU64q s.endUnixNs
  let w := match m with
    | some m => w |> jwCh 44 |> jwCodeAttrs (chars m.method) (chars m.file) m.line
    | none   => w
  jwCh 125 w

/-- `otlp_json_traces_build`. -/
def otlpJsonTracesBuild (buf : Mem) (cap : Capacity) (c : Context) (spans : List Traces.Span)
    (metas : List OtlpMethodMeta) : Int × Mem :=
  let w : Jw := ⟨buf, cap, 0, true⟩
  let w := w |> jwRaw (ascii "\x7b\"resourceSpans\":[\x7b") |> jwResource c |>
    jwRaw (ascii ",\"scopeSpans\":[\x7b") |> jwScope c |> jwRaw (ascii ",\"spans\":[")
  (w |> jwLoop (jwSpan metas) 0 spans |> jwRaw (ascii "]\x7d]\x7d]\x7d")).result

/-- `otlp_series_t`, without the buckets. -/
structure OtlpSeries where
  count : UInt64
  labels : List (CString × CString)

/-- A round of the loop over the series, with its `first` flag. -/
def jwSumPoint (t start : UInt64) (s : Bool × Jw) (x : OtlpSeries) : Bool × Jw :=
  if x.count = 0 then s
  else
    let w := if s.1 then s.2 else jwCh 44 s.2
    (false, w |> jwRaw (ascii "\x7b\"startTimeUnixNano\":") |> jwU64q start |>
      jwRaw (ascii ",\"timeUnixNano\":") |> jwU64q t |>
      jwRaw (ascii ",\"asInt\":") |> jwI64q x.count.toInt64 |>
      jwCh 44 |> jwLabels x.labels |> jwCh 125)

/-- `otlp_json_metrics_sum_build`. -/
def otlpJsonMetricsSumBuild (buf : Mem) (cap : Capacity) (c : Context) (name unit : Option CString)
    (t start : UInt64) (series : List OtlpSeries) : Int × Mem :=
  let w : Jw := ⟨buf, cap, 0, true⟩
  let w := w |> jwRaw (ascii "\x7b\"resourceMetrics\":[\x7b") |> jwResource c |>
    jwRaw (ascii ",\"scopeMetrics\":[\x7b") |> jwScope c |> jwRaw (ascii ",\"metrics\":[") |>
    jwRaw (ascii "\x7b\"name\":") |> jwJstr (chars name)
  let w := if (chars unit).getD [] = [] then w
    else w |> jwRaw (ascii ",\"unit\":") |> jwJstr (chars unit)
  let w := jwRaw (ascii ",\"sum\":\x7b\"dataPoints\":[") w
  ((series.foldl (jwSumPoint t start) (true, w)).2 |>
    jwRaw (ascii "],\"aggregationTemporality\":2,\"isMonotonic\":true\x7d\x7d") |>
    jwRaw (ascii "]\x7d]\x7d]\x7d")).result

/-! ### What the buffer holds -/

/-- The writer `w` has written `t` into a buffer that held `buf`. -/
structure Written (buf : Mem) (cap : Capacity) (t : Text) (w : Jw) : Prop where
  same : w.cap = cap
  beyond : ∀ a, cap.val ≤ a → w.p a = buf a
  ok : w.ok = true ↔ t.length ≤ cap.val
  count : w.ok = true → w.n = t.length
  bytes : w.ok = true → read w.p 0 t.length = t

theorem written_start (buf : Mem) (cap : Capacity) : Written buf cap [] ⟨buf, cap, 0, true⟩ :=
  ⟨rfl, fun _ _ => rfl, iff_of_true rfl (Nat.zero_le _), fun _ => rfl, fun _ => rfl⟩

variable {buf : Mem} {cap : Capacity} {w : Jw} {t : Text}

/-- **One byte.** -/
theorem Written.jwCh (h : Written buf cap t w) (c : UInt8) :
    Written buf cap (t ++ [c]) (jwCh c w) := by
  obtain ⟨rfl, hbeyond, hok, hcount, hbytes⟩ := h
  have hobject := w.cap.object
  by_cases hroom : w.n < w.cap.val
  · rw [JsonWriter.jwCh, if_pos hroom]
    refine ⟨rfl, fun a ha => ?_, ?_, fun h => ?_, fun h => ?_⟩
    · exact (Function.update_of_ne (by omega) _ _).trans (hbeyond a ha)
    · change w.ok = true ↔ _
      rw [List.length_append, List.length_singleton]
      constructor
      · intro h
        have := hcount h
        omega
      · intro hlen
        exact hok.mpr (by omega)
    · change (w.n + 1) % 2 ^ 64 = _
      rw [List.length_append, List.length_singleton, hcount h, Nat.mod_eq_of_lt]
      have := hcount h
      omega
    · change read (Function.update w.p w.n c) 0 _ = _
      rw [List.length_append, List.length_singleton, read_add, hcount h, Nat.zero_add]
      congr 1
      · refine (read_congr fun a _ ha => ?_).trans (hbytes h)
        exact Function.update_of_ne (by omega) _ _
      · simp [Bytes.read]
  · rw [JsonWriter.jwCh, if_neg hroom]
    refine ⟨rfl, hbeyond, ?_, fun h => (Bool.false_ne_true h).elim,
      fun h => (Bool.false_ne_true h).elim⟩
    -- the count is at the capacity, or something did not fit before
    have hlong : ¬ (t ++ [c]).length ≤ w.cap.val := by
      rw [List.length_append, List.length_singleton]
      intro hlen
      have := hcount (hok.mpr (by omega))
      omega
    exact iff_of_false Bool.false_ne_true hlong

/-- **A text.** -/
theorem Written.jwRaw (h : Written buf cap t w) (s : Text) :
    Written buf cap (t ++ s) (jwRaw s w) := by
  induction s generalizing t w with
  | nil => rwa [List.append_nil]
  | cons c s ih =>
      have hstep := ih (h.jwCh c)
      rwa [List.append_assoc, List.singleton_append] at hstep

/-- What a builder returns when it has written `t`. -/
structure Result (buf : Mem) (cap : Capacity) (t : Text) (r : Int × Mem) : Prop where
  beyond : ∀ a, cap.val ≤ a → r.2 a = buf a
  failed : r.1 = -1 ↔ cap.val < t.length
  count : r.1 ≠ -1 → r.1 = t.length
  bytes : r.1 ≠ -1 → read r.2 0 r.1.toNat = t

theorem Written.result (h : Written buf cap t w) : Result buf cap t w.result := by
  have hobject := cap.object
  by_cases hok : w.ok = true
  · have hlen := h.ok.mp hok
    have hcount : w.result.1 = t.length := by
      rw [Jw.result, if_pos hok, h.count hok]
      dsimp only
      exact Int.bmod_eq_of_le_mul_two (by omega) (by omega)
    refine ⟨h.beyond, ⟨fun hr => by omega, fun hlong => by omega⟩, fun _ => hcount, fun _ => ?_⟩
    rw [hcount, Int.toNat_natCast]
    exact h.bytes hok
  · have hfail : w.result.1 = -1 := by rw [Jw.result, if_neg hok]
    refine ⟨h.beyond, iff_of_true hfail ?_, fun hr => absurd hfail hr, fun hr => absurd hfail hr⟩
    exact Nat.lt_of_not_le fun hlen => hok (h.ok.mpr hlen)

/-- **A builder that wrote `t`.** -/
theorem result_jwRaw (buf : Mem) (cap : Capacity) (t : Text) :
    Result buf cap t (jwRaw t ⟨buf, cap, 0, true⟩).result :=
  ((written_start buf cap).jwRaw t).result

/-! ### The writers write texts -/

theorem jwRaw_append (s t : Text) (w : Jw) : jwRaw t (jwRaw s w) = jwRaw (s ++ t) w :=
  (List.foldl_append ..).symm

theorem jwCh_eq (c : UInt8) (w : Jw) : jwCh c w = jwRaw [c] w := rfl

theorem jwRaw_nil (w : Jw) : jwRaw [] w = w := rfl

/-- A loop whose rounds write texts writes them all. -/
theorem foldl_jwRaw {f : Jw → UInt8 → Jw} {g : UInt8 → Text} (h : ∀ w c, f w c = jwRaw (g c) w)
    (s : Text) (w : Jw) : s.foldl f w = jwRaw (s.flatMap g) w := by
  induction s generalizing w with
  | nil => rfl
  | cons c s ih => rw [List.foldl_cons, ih, h, jwRaw_append, List.flatMap_cons]

theorem jwEscaped_eq (w : Jw) (c : UInt8) : jwEscaped w c = jwRaw (escape c) w := by
  rw [jwEscaped, escape]
  split_ifs <;> rfl

theorem jwJstr_eq (s : Option Text) (w : Jw) : jwJstr s w = jwRaw (quote (s.getD [])) w := by
  rw [jwJstr, foldl_jwRaw jwEscaped_eq, jwCh_eq, jwCh_eq, jwRaw_append, jwRaw_append, quote]
  rfl

theorem jwU64q_eq (v : UInt64) : jwU64q v = jwRaw (34 :: (decimal v.toNat ++ [34])) := by
  have hlen := length_decimal_le (show 0 < 20 by decide)
    (show v.toNat < 10 ^ 20 from v.toNat_lt.trans (by decide))
  rw [jwU64q, snprintf_of_lt]
  simp only [List.length_cons, List.length_append, List.length_nil]
  omega

theorem length_signed_int64 (v : Int64) : (signed v.toInt).length ≤ 20 :=
  length_signed_le (show 0 < 19 by decide) (by
    have := v.le_toInt
    have := v.toInt_lt
    omega)

theorem jwI64q_eq (v : Int64) : jwI64q v = jwRaw (34 :: (signed v.toInt ++ [34])) := by
  have hlen := length_signed_int64 v
  rw [jwI64q, snprintf_of_lt]
  simp only [List.length_cons, List.length_append, List.length_nil]
  omega

theorem jwInt_eq (v : Int64) : jwInt v = jwRaw (signed v.toInt) := by
  have hlen := length_signed_int64 v
  rw [jwInt, snprintf_of_lt (by omega)]

/-- The two digits of a byte. -/
def hexPair (c : UInt8) : Text := [hexDigit (c / 16), hexDigit (c % 16)]

theorem jwHexByte_eq (w : Jw) (c : UInt8) : jwHexByte w c = jwRaw (hexPair c) w := by
  have hdigits : ∀ c : UInt8, [(ascii "0123456789abcdef").getD (c >>> 4).toNat 0,
      (ascii "0123456789abcdef").getD (c &&& 0xf).toNat 0] = hexPair c := by decide +kernel
  rw [← hdigits c]
  rfl

theorem jwHex_eq (b : List UInt8) (n : Nat) (w : Jw) :
    jwHex b n w = jwRaw (34 :: ((b.take n).flatMap hexPair ++ [34])) w := by
  rw [jwHex, foldl_jwRaw jwHexByte_eq, jwCh_eq, jwCh_eq, jwRaw_append, jwRaw_append]
  rfl

/-! ### Lists with commas -/

theorem commas_concat (xs : List Text) (x : Text) :
    commas (xs ++ [x]) = if xs = [] then x else commas xs ++ 44 :: x := by
  induction xs with
  | nil => rfl
  | cons y ys ih =>
      cases ys with
      | nil => rfl
      | cons z zs =>
          rw [if_neg (List.cons_ne_nil _ _)] at ih ⊢
          rw [List.cons_append, List.cons_append, commas, ← List.cons_append, ih, commas,
            List.append_assoc, List.cons_append]

/-- The texts `xs` have been written with commas between them, and the flag says if there are
none. -/
structure Listed (w : Jw) (xs : List Text) (s : Bool × Jw) : Prop where
  first : s.1 = decide (xs = [])
  writer : s.2 = jwRaw (commas xs) w

/-- One more. -/
theorem Listed.concat {xs : List Text} {s : Bool × Jw} (h : Listed w xs s) (x : Text) :
    Listed w (xs ++ [x]) (false, jwRaw x (if s.1 then s.2 else jwCh 44 s.2)) := by
  refine ⟨by simp, ?_⟩
  rw [h.first, h.writer, commas_concat]
  by_cases hxs : xs = []
  · simp [hxs, commas, jwRaw_nil]
  · simp only [hxs, decide_false, Bool.false_eq_true, if_false, jwCh_eq, jwRaw_append,
      List.append_assoc, List.singleton_append]

/-- A loop with a `first` flag writes the texts of the elements that it does not skip. -/
theorem Listed.foldl {α : Type} {f : Bool × Jw → α → Bool × Jw} {keep : α → Bool} {g : α → Text}
    (hskip : ∀ s x, keep x = false → f s x = s)
    (hkeep : ∀ s x, keep x = true → f s x = (false, jwRaw (g x) (if s.1 then s.2 else jwCh 44 s.2)))
    {ys : List Text} {s : Bool × Jw} (h : Listed w ys s) (xs : List α) :
    Listed w (ys ++ (xs.filter keep).map g) (xs.foldl f s) := by
  induction xs generalizing ys s with
  | nil => simpa using h
  | cons x xs ih =>
      rw [List.foldl_cons]
      cases hx : keep x with
      | false =>
          rw [hskip s x hx, List.filter_cons_of_neg (by simp [hx])]
          exact ih h
      | true =>
          have hstep := ih (hkeep s x hx ▸ h.concat (g x))
          rwa [List.append_assoc, List.singleton_append, ← List.map_cons,
            ← List.filter_cons_of_pos hx] at hstep

/-- A loop with an index writes the texts of all elements. -/
theorem jwLoop_eq {α : Type} {item : α → Jw → Jw} {g : α → Text}
    (h : ∀ x w, item x w = jwRaw (g x) w) (xs : List α) (w : Jw) :
    jwLoop item 0 xs w = jwRaw (commas (xs.map g)) w := by
  have hrest : ∀ (xs : List α) (i : Nat) (ys : List Text), (i = 0 ↔ ys = []) →
      jwLoop item i xs (jwRaw (commas ys) w) = jwRaw (commas (ys ++ xs.map g)) w := by
    intro xs
    induction xs with
    | nil => intro i ys _; rw [List.map_nil, List.append_nil]; rfl
    | cons x xs ih =>
        intro i ys hi
        have hlisted : Listed w ys (decide (ys = []), jwRaw (commas ys) w) := ⟨rfl, rfl⟩
        have hone := (hlisted.concat (g x)).writer
        rw [jwLoop, h]
        by_cases hys : ys = []
        · rw [if_neg (not_not.mpr (hi.mpr hys))]
          simp only [hys, decide_true, if_true] at hone ⊢
          rw [hone]
          exact ih (i + 1) ([] ++ [g x]) (by simp)
        · rw [if_pos (mt hi.mp hys)]
          simp only [hys, decide_false, Bool.false_eq_true, if_false] at hone
          rw [hone, ih (i + 1) (ys ++ [g x]) (by simp), List.append_assoc, List.singleton_append,
            ← List.map_cons]
  exact hrest xs 0 [] (by simp)

end SpinelEbpf.Otlp.JsonWriter

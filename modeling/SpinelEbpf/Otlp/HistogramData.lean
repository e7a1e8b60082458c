import SpinelEbpf.Otlp.Histogram

/-!
# Otlp — what the two encodings carry

The JSON text of a histogram is the rendering of a tree (`jsonText_eq`), so its reader gets the
points of the series that count something, with the sum and the boundaries to six significant digits
(`jsonPoints_eq`).  The reader of the protocol buffers gets the points of all series, exactly
(`pbPoints_eq`).  The lists are the same just when nothing was left out or rounded
(`points_eq_iff`).
-/

namespace SpinelEbpf.Otlp.Histogram
open Json Number

/-! ### Fixed texts -/

/-- A key as it stands in the text. -/
abbrev quoted (s : String) : Text := quote (ascii s)

theorem ascii_braces : ascii "\x7d\x7d" = [125, 125] := by decide

theorem ascii_startTime : ascii "\x7b\"startTimeUnixNano\":" =
    123 :: (quoted "startTimeUnixNano" ++ [58]) := by decide

theorem ascii_time : ascii ",\"timeUnixNano\":" = 44 :: (quoted "timeUnixNano" ++ [58]) := by decide

theorem ascii_attributes : ascii "\"attributes\":[" = quoted "attributes" ++ [58, 91] := by decide

theorem ascii_bracket : ascii "]" = [93] := by decide

theorem ascii_brace : ascii "\x7d" = [125] := by decide

theorem ascii_resourceMetrics : ascii "\x7b\"resourceMetrics\":[\x7b" =
    123 :: (quoted "resourceMetrics" ++ [58, 91, 123]) := by decide

theorem ascii_resource : ascii "\"resource\":\x7b\"attributes\":[" =
    quoted "resource" ++ 58 :: 123 :: (quoted "attributes" ++ [58, 91]) := by decide

theorem ascii_bracketBrace : ascii "]\x7d" = [93, 125] := by decide

theorem ascii_scopeMetrics : ascii ",\"scopeMetrics\":[\x7b" =
    44 :: (quoted "scopeMetrics" ++ [58, 91, 123]) := by decide

theorem ascii_scope : ascii "\"scope\":\x7b\"name\":" =
    quoted "scope" ++ 58 :: 123 :: (quoted "name" ++ [58]) := by decide

theorem ascii_unit : ascii ",\"unit\":" = 44 :: (quoted "unit" ++ [58]) := by decide

/-! ### The tree of the text -/

/-- An attribute. -/
def kvTree (kv : Text × Text) : Value :=
  .obj [(ascii "key", .str kv.1), (ascii "value", .obj [(ascii "stringValue", .str kv.2)])]

def u64Tree (v : UInt64) : Value := .str (decimal v.toNat)

def dblTree (v : Whole) : Value :=
  .num ⟨gText v.val, (gText_spec v.val).1, (gText_spec v.val).2, isNumber_gText v.val⟩

/-- A data point. -/
def pointTree (i : Input) (s : OtlpHseries) : Value :=
  .obj [(ascii "startTimeUnixNano", u64Tree i.start), (ascii "timeUnixNano", u64Tree i.time),
    (ascii "count", u64Tree s.count), (ascii "sum", dblTree s.sum),
    (ascii "bucketCounts", .arr ((s.counts i.bounds.length).map u64Tree)),
    (ascii "explicitBounds", .arr (i.bounds.map dblTree)),
    (ascii "attributes", .arr (s.labels.map kvTree))]

/-- The histogram. -/
def histTree (i : Input) : Value :=
  .obj [(ascii "dataPoints", .arr ((i.series.filter fun s => s.count ≠ 0).map (pointTree i))),
    (ascii "aggregationTemporality", .num ⟨ascii "2", by decide, by decide, by decide⟩)]

/-- The metric; its unit may be missing. -/
def metricTree (i : Input) : Value :=
  if i.unit ≠ [] then
    .obj [(ascii "name", .str i.name), (ascii "unit", .str i.unit), (ascii "histogram", histTree i)]
  else .obj [(ascii "name", .str i.name), (ascii "histogram", histTree i)]

/-- The whole request. -/
def requestTree (i : Input) : Value :=
  .obj [(ascii "resourceMetrics", .arr [.obj [
    (ascii "resource", .obj [(ascii "attributes",
      .arr ((i.resource.filter fun kv => kv.2 ≠ []).map kvTree))]),
    (ascii "scopeMetrics", .arr [.obj [
      (ascii "scope", .obj [(ascii "name", .str i.scopeName)]),
      (ascii "metrics", .arr [metricTree i])]])]])]

theorem renderElems_eq (xs : List Value) : renderElems xs = commas (xs.map render) := by
  induction xs with
  | nil => rfl
  | cons x xs ih =>
      cases xs with
      | nil => rfl
      | cons y ys =>
          rw [renderElems, ih]
          rfl

theorem renderElems_map {α : Type} {f : α → Value} {g : α → Text} (h : ∀ x, render (f x) = g x)
    (xs : List α) : renderElems (xs.map f) = commas (xs.map g) := by
  rw [renderElems_eq, List.map_map]
  congr 1
  exact List.map_congr_left fun x _ => h x

theorem quote_plain {t : Text} (h : ∀ c ∈ t, escape c = [c]) : quote t = 34 :: (t ++ [34]) := by
  have hflat : t.flatMap escape = t := by
    induction t with
    | nil => rfl
    | cons c t ih =>
        rw [List.flatMap_cons, h c List.mem_cons_self,
          ih fun d hd => h d (List.mem_cons_of_mem c hd), List.singleton_append]
  rw [quote, hflat]

/-- Digits are not escaped. -/
theorem quote_digits {t : Text} (h : t.all isDigit = true) : quote t = 34 :: (t ++ [34]) := by
  have hplain : ∀ c : UInt8, isDigit c = true → escape c = [c] := by decide +kernel
  exact quote_plain fun c hc => hplain c (List.all_eq_true.mp h c hc)

theorem render_u64Tree (v : UInt64) : render (u64Tree v) = jwU64q v := by
  rw [u64Tree, render, quote_digits (decimal_spec _).2.1, jwU64q]

theorem render_dblTree (v : Whole) : render (dblTree v) = jwDbl v := by
  rw [dblTree, render, jwDbl]

theorem render_kvTree (kv : Text × Text) : render (kvTree kv) = jwKv kv := by
  have h₁ : ascii "\x7b\"key\":" = 123 :: (quoted "key" ++ [58]) := by decide
  have h₂ : ascii ",\"value\":\x7b\"stringValue\":" =
      44 :: (quoted "value" ++ 58 :: 123 :: (quoted "stringValue" ++ [58])) := by decide
  simp only [kvTree, render, renderFields, jwKv, jwJstr, h₁, h₂, ascii_braces, List.append_assoc,
    List.cons_append, List.nil_append]

theorem render_pointTree (i : Input) (s : OtlpHseries) : render (pointTree i s) = jwPoint i s := by
  have h₁ : ascii ",\"count\":" = 44 :: (quoted "count" ++ [58]) := by decide
  have h₂ : ascii ",\"sum\":" = 44 :: (quoted "sum" ++ [58]) := by decide
  have h₃ : ascii ",\"bucketCounts\":[" = 44 :: (quoted "bucketCounts" ++ [58, 91]) := by decide
  have h₄ : ascii "],\"explicitBounds\":[" =
      93 :: 44 :: (quoted "explicitBounds" ++ [58, 91]) := by decide
  have h₅ : ascii "]," = [93, 44] := by decide
  simp only [pointTree, render, renderFields, render_u64Tree, render_dblTree,
    renderElems_map render_u64Tree, renderElems_map render_dblTree, renderElems_map render_kvTree,
    jwPoint, jwLabels, ascii_startTime, ascii_time, h₁, h₂, h₃, h₄, h₅, ascii_attributes,
    ascii_bracket, ascii_brace, List.append_assoc, List.cons_append, List.nil_append]

/-- **The text is the rendering of its tree.** -/
theorem jsonText_eq (i : Input) : jsonText i = render (requestTree i) := by
  have h₁ : ascii ",\"metrics\":[\x7b\"name\":" =
      44 :: (quoted "metrics" ++ 58 :: 91 :: 123 :: (quoted "name" ++ [58])) := by decide
  have h₂ : ascii ",\"histogram\":\x7b\"dataPoints\":[" =
      44 :: (quoted "histogram" ++ 58 :: 123 :: (quoted "dataPoints" ++ [58, 91])) := by decide
  have h₃ : ascii "],\"aggregationTemporality\":2\x7d\x7d]\x7d]\x7d]\x7d" =
      93 :: 44 :: (quoted "aggregationTemporality" ++ 58 :: (ascii "2" ++
        [125, 125, 93, 125, 93, 125, 93, 125])) := by decide
  simp only [jsonText, requestTree, metricTree, histTree, jwResource, jwScope, jwJstr,
    ascii_resourceMetrics, ascii_resource, ascii_bracketBrace, ascii_scopeMetrics, ascii_scope,
    ascii_brace, h₁, ascii_unit, h₂, h₃]
  split <;>
    simp only [render, renderFields, renderElems, renderElems_map render_kvTree,
      renderElems_map (render_pointTree i), List.append_assoc, List.cons_append, List.nil_append]

/-! ### The points of the text -/

/-- The point of a series, with its numbers read as `r` has them. -/
def dataPoint (r : Nat → Nat) (i : Input) (s : OtlpHseries) : DataPoint where
  startTimeUnixNano := i.start
  timeUnixNano := i.time
  count := s.count
  sum := some (r s.sum.val : ℚ)
  bucketCounts := s.counts i.bounds.length
  explicitBounds := i.bounds.map fun b => (r b.val : ℚ)
  attributes := s.labels

theorem mapM_map_eq {α β γ : Type} {f : β → Option γ} {g : α → β} {h : α → γ} {xs : List α}
    (hfg : ∀ x ∈ xs, f (g x) = some (h x)) : (xs.map g).mapM f = some (xs.map h) := by
  induction xs with
  | nil => rfl
  | cons x xs ih =>
      obtain ⟨hx, hxs⟩ := List.forall_mem_cons.mp hfg
      rw [List.map_cons, List.mapM_cons, hx, ih hxs]
      rfl

theorem u64_u64Tree (v : UInt64) : u64 (u64Tree v) = some v := by
  rw [u64Tree, u64, ofDecimal_decimal, Option.bind_eq_bind, Option.bind_some, if_pos v.toNat_lt,
    UInt64.ofNat_toNat]

theorem double_dblTree (v : Whole) : double (dblTree v) = some (rounded v.val : ℚ) := by
  rw [dblTree, double, numValue_gText]

theorem jsonAttribute_kvTree (kv : Text × Text) : jsonAttribute (kvTree kv) = some kv := rfl

theorem jsonPoint_pointTree (i : Input) (s : OtlpHseries) :
    jsonPoint (pointTree i s) = some (dataPoint rounded i s) := by
  have hstart : member "startTimeUnixNano" (pointTree i s) = some (u64Tree i.start) := rfl
  have htime : member "timeUnixNano" (pointTree i s) = some (u64Tree i.time) := rfl
  have hcount : member "count" (pointTree i s) = some (u64Tree s.count) := rfl
  have hsum : member "sum" (pointTree i s) = some (dblTree s.sum) := rfl
  have hcounts : member "bucketCounts" (pointTree i s) =
      some (.arr ((s.counts i.bounds.length).map u64Tree)) := rfl
  have hbounds : member "explicitBounds" (pointTree i s) = some (.arr (i.bounds.map dblTree)) := rfl
  have hlabels : member "attributes" (pointTree i s) = some (.arr (s.labels.map kvTree)) := rfl
  simp only [jsonPoint, hstart, htime, hcount, hsum, hcounts, hbounds, hlabels, elements,
    Option.bind_eq_bind, Option.bind_some, u64_u64Tree, double_dblTree,
    mapM_map_eq fun v _ => u64_u64Tree v, mapM_map_eq fun v _ => double_dblTree v,
    mapM_map_eq fun kv _ => jsonAttribute_kvTree kv, List.map_id']
  rfl

/-- **The points that a reader of the text gets.** -/
theorem jsonPoints_eq (i : Input) :
    jsonPoints (jsonText i) =
      some ((i.series.filter fun s => s.count ≠ 0).map (dataPoint rounded i)) := by
  have hmetrics : (below "resourceMetrics" [requestTree i] >>= below "scopeMetrics" >>=
      below "metrics") = some [metricTree i] := rfl
  have hhist : member "histogram" (metricTree i) = some (histTree i) := by
    unfold metricTree
    split <;> rfl
  have hpoints : below "dataPoints" [histTree i] =
      some ((i.series.filter fun s => s.count ≠ 0).map (pointTree i)) := by
    have hmember : member "dataPoints" (histTree i) =
        some (.arr ((i.series.filter fun s => s.count ≠ 0).map (pointTree i))) := rfl
    simp [below, hmember, elements]
  rw [jsonPoints, jsonText_eq, parse_render, Option.bind_eq_bind, Option.bind_some, hmetrics,
    Option.bind_eq_bind, Option.bind_some, List.mapM_cons, hhist, List.mapM_nil]
  exact (congrArg (· >>= List.mapM jsonPoint) hpoints).trans
    (mapM_map_eq fun s _ => jsonPoint_pointTree i s)

/-! ### The points of the protocol buffers -/

section Fields

variable {f : Nat} {m n : Wire.Message}

theorem allBytes_append : allBytes f (m ++ n) = allBytes f m ++ allBytes f n :=
  List.filterMap_append

theorem allFixed64_append : allFixed64 f (m ++ n) = allFixed64 f m ++ allFixed64 f n :=
  List.filterMap_append

/-- The strings of a repeated field. -/
theorem allBytes_map {α : Type} (g : Nat) (h : α → List UInt8) (xs : List α) :
    allBytes f (xs.map fun x => put g (h x)) = if g = f then xs.map h else [] := by
  induction xs with
  | nil => simp [allBytes]
  | cons x xs ih =>
      by_cases hg : g = f <;> simp_all [allBytes, put]

/-- The words of a repeated field. -/
theorem allFixed64_map {α : Type} (g : Nat) (h : α → UInt64) (xs : List α) :
    allFixed64 f (xs.map fun x => (g, Wire.Item.fixed64 (h x))) =
      if g = f then xs.map h else [] := by
  induction xs with
  | nil => simp [allFixed64]
  | cons x xs ih =>
      by_cases hg : g = f <;> simp_all [allFixed64]

theorem allBytes_fixed64 {α : Type} (g : Nat) (h : α → UInt64) (xs : List α) :
    allBytes f (xs.map fun x => (g, Wire.Item.fixed64 (h x))) = [] := by
  simp [allBytes]

theorem allFixed64_bytes {α : Type} (g : Nat) (h : α → List UInt8) (xs : List α) :
    allFixed64 f (xs.map fun x => put g (h x)) = [] := by
  simp [allFixed64, put]

theorem allFixed64_putFixed64 (g : Nat) (v : UInt64) :
    allFixed64 f (putFixed64 g v) = if g = f ∧ v ≠ 0 then [v] else [] := by
  unfold putFixed64
  by_cases hv : v = 0 <;> by_cases hg : g = f <;> simp [allFixed64, hv, hg]

theorem allBytes_putFixed64 (g : Nat) (v : UInt64) : allBytes f (putFixed64 g v) = [] := by
  unfold putFixed64
  split <;> simp [allBytes]

/-- A word that was left out is zero. -/
theorem getD_putFixed64 (v : UInt64) : (if v = 0 then [] else [v]).getLast?.getD 0 = v := by
  by_cases hv : v = 0 <;> simp [hv]

end Fields

theorem doubleValue_bits (v : Whole) : doubleValue v.bits.toNat = some (v.val : ℚ) := by
  have hlt := doubleBits_lt v.lt
  rw [Whole.bits, UInt64.toNat_ofNat_of_lt' hlt, doubleValue_doubleBits v.lt]

theorem pbAttribute_otlpPutKvStr (kv : Text × Text) :
    Wire.decode (otlpPutKvStr kv) = some [put 1 kv.1, put 2 (Wire.encode [put 1 kv.2])] ∧
      pbAttribute [put 1 kv.1, put 2 (Wire.encode [put 1 kv.2])] = some kv := by
  refine ⟨Wire.decode_encode _, ?_⟩
  have hvalue : lastBytes 2 [put 1 kv.1, put 2 (Wire.encode [put 1 kv.2])] =
      Wire.encode [put 1 kv.2] := rfl
  rw [pbAttribute, hvalue, Wire.decode_encode]
  rfl

theorem pbPoint_encHistDp (i : Input) (s : OtlpHseries) :
    pbPoint (encHistDp i s) = some (dataPoint id i s) := by
  have hsingle (b : UInt64) : [((5 : Nat), Wire.Item.fixed64 b)] =
      [b].map fun x => (5, Wire.Item.fixed64 x) := rfl
  have hlabels : nested 9 [encHistDp i s] =
      some (s.labels.map fun kv => [put 1 kv.1, put 2 (Wire.encode [put 1 kv.2])]) := by
    rw [nested, List.flatMap_singleton, encHistDp, hsingle]
    simp only [allBytes_append, allBytes_putFixed64, allBytes_fixed64, allBytes_map,
      List.nil_append, if_true]
    exact mapM_map_eq fun kv _ => (pbAttribute_otlpPutKvStr kv).1
  have hfixed (f : Nat) : allFixed64 f (encHistDp i s) =
      (if 2 = f ∧ i.start ≠ 0 then [i.start] else []) ++
      (if 3 = f ∧ i.time ≠ 0 then [i.time] else []) ++
      (if 4 = f ∧ s.count ≠ 0 then [s.count] else []) ++ (if 5 = f then [s.sum.bits] else []) ++
      (if 6 = f then s.counts i.bounds.length else []) ++
      (if 7 = f then i.bounds.map Whole.bits else []) := by
    rw [encHistDp, hsingle]
    simp only [allFixed64_append, allFixed64_putFixed64, allFixed64_map, allFixed64_bytes,
      List.append_nil, List.map_id']
  have hstart : (allFixed64 2 (encHistDp i s)).getLast?.getD 0 = i.start := by
    simp [hfixed, getD_putFixed64]
  have htime : (allFixed64 3 (encHistDp i s)).getLast?.getD 0 = i.time := by
    simp [hfixed, getD_putFixed64]
  have hcount : (allFixed64 4 (encHistDp i s)).getLast?.getD 0 = s.count := by
    simp [hfixed, getD_putFixed64]
  have hsum : ((allFixed64 5 (encHistDp i s)).mapM fun b => doubleValue b.toNat) =
      some [(s.sum.val : ℚ)] := by
    simp [hfixed, doubleValue_bits]
  have hcounts : allFixed64 6 (encHistDp i s) = s.counts i.bounds.length := by simp [hfixed]
  have hbounds : ((allFixed64 7 (encHistDp i s)).mapM fun b => doubleValue b.toNat) =
      some (i.bounds.map fun b => (b.val : ℚ)) := by
    have hwords : allFixed64 7 (encHistDp i s) = i.bounds.map Whole.bits := by simp [hfixed]
    rw [hwords]
    exact mapM_map_eq fun b _ => doubleValue_bits b
  have hattributes : (s.labels.map fun kv => [put 1 kv.1, put 2 (Wire.encode [put 1 kv.2])]).mapM
      pbAttribute = some s.labels := by
    rw [mapM_map_eq fun kv _ => (pbAttribute_otlpPutKvStr kv).2, List.map_id']
  simp only [pbPoint, hstart, htime, hcount, hsum, hcounts, hbounds, hlabels, hattributes,
    Option.bind_eq_bind, Option.bind_some]
  rfl

/-- **The points that a reader of the protocol buffers gets.** -/
theorem pbPoints_eq (i : Input) :
    pbPoints (metricsEnvelopeEncode i (encHistMetric i)) =
      some (i.series.map (dataPoint id i)) := by
  -- one level of nesting with one message in it
  have hone {f : Nat} {m n : Wire.Message} (h : allBytes f m = [Wire.encode n]) :
      nested f [m] = some [n] := by
    rw [nested, List.flatMap_singleton, h, List.mapM_cons, Wire.decode_encode]
    rfl
  have hhist : allBytes 9 (encHistMetric i) = [Wire.encode (encHist i)] := by
    unfold encHistMetric
    split <;> rfl
  have hpoints : nested 1 [encHist i] = some (i.series.map (encHistDp i)) := by
    have hbytes : allBytes 1 (encHist i) = i.series.map fun s => Wire.encode (encHistDp i s) := by
      rw [encHist, allBytes_append, allBytes_map, if_pos rfl]
      exact List.append_nil _
    rw [nested, List.flatMap_singleton, hbytes]
    exact mapM_map_eq fun s _ => Wire.decode_encode _
  have hmetrics : (nested 1 [[put 1 (Wire.encode [put 1 (Wire.encode (otlpEncResourceAttrs i)),
      put 2 (Wire.encode [put 1 (Wire.encode [put 1 i.scopeName]),
        put 2 (Wire.encode (encHistMetric i))])])]] >>= nested 2 >>= nested 2) =
      some [encHistMetric i] := by
    rw [hone rfl, Option.bind_eq_bind, Option.bind_some, hone rfl, Option.bind_some, hone rfl]
  rw [pbPoints, metricsEnvelopeEncode, Wire.decode_encode, Option.bind_eq_bind, Option.bind_some,
    hmetrics, Option.bind_eq_bind, Option.bind_some, hone hhist, Option.bind_eq_bind,
    Option.bind_some, hpoints]
  exact mapM_map_eq fun s _ => pbPoint_encHistDp i s

/-! ### The two lists -/

/-- A point that is read with rounded numbers is the exact one if none was rounded. -/
theorem dataPoint_eq_iff (i : Input) (s : OtlpHseries) :
    dataPoint rounded i s = dataPoint id i s ↔
      SixDigits s.sum.val ∧ ∀ b ∈ i.bounds, SixDigits b.val := by
  simp only [dataPoint, DataPoint.mk.injEq, true_and, and_true, id, Option.some.injEq, Nat.cast_inj,
    List.map_inj_left, rounded_eq_iff]

/-- **The two encodings carry the same points exactly when nothing is left out or rounded**: every
series counts something, and its sum and the boundaries have six significant digits. -/
theorem points_eq_iff {i : Input} {cap cap' : Nat} {text bytes : List UInt8}
    (hjson : otlpJsonMetricsHistBuild cap i = some text)
    (hpb : otlpMetricsHistBuild cap' i = some bytes) :
    jsonPoints text = pbPoints bytes ↔
      ∀ s ∈ i.series, s.count ≠ 0 ∧ SixDigits s.sum.val ∧ ∀ b ∈ i.bounds, SixDigits b.val := by
  obtain ⟨-, htext⟩ := Option.ite_none_right_eq_some.mp hjson
  obtain ⟨-, hbytes⟩ := Option.ite_none_right_eq_some.mp hpb
  obtain rfl := Option.some.inj htext
  obtain rfl := Option.some.inj hbytes
  rw [jsonPoints_eq, pbPoints_eq, Option.some.injEq]
  constructor
  · intro heq
    -- no point is missing, so no series was left out
    have hlen : (i.series.filter fun s => s.count ≠ 0).length = i.series.length := by
      simpa using congrArg List.length heq
    have hall := List.length_filter_eq_length_iff.mp hlen
    have hself : (i.series.filter fun s => s.count ≠ 0) = i.series := List.filter_eq_self.mpr hall
    rw [hself, List.map_inj_left] at heq
    intro s hs
    exact ⟨by simpa using hall s hs, (dataPoint_eq_iff i s).mp (heq s hs)⟩
  · intro h
    have hself : (i.series.filter fun s => s.count ≠ 0) = i.series :=
      List.filter_eq_self.mpr fun s hs => by simpa using (h s hs).1
    rw [hself]
    exact List.map_congr_left fun s hs => (dataPoint_eq_iff i s).mpr (h s hs).2

/-- Requests of a service with the boundaries 5 and 10. -/
def requests (series : List OtlpHseries) : Input where
  serviceName := ascii "web"
  serviceVersion := []
  serviceInstanceId := ascii "1"
  resourceAttributes := []
  scope := none
  name := ascii "http.server.request.duration"
  unit := ascii "ms"
  bounds := [⟨5, by decide⟩, ⟨10, by decide⟩]
  time := 2
  start := 1
  series := series

/-- Three requests of twelve milliseconds together. -/
def threeRequests : Input := requests [⟨[], 3, ⟨12, by decide⟩, fun _ => 1⟩]

theorem points_eq_threeRequests :
    jsonPoints (jsonText threeRequests) =
      pbPoints (metricsEnvelopeEncode threeRequests (encHistMetric threeRequests)) := by
  refine (points_eq_iff (if_pos (Nat.le_refl _)) (if_pos (Nat.le_refl _))).mpr ?_
  have hsix {n : Nat} (h : n < 10 ^ 6) : SixDigits n := ⟨n, 0, h, (Nat.mul_one n).symm⟩
  intro s hs
  obtain rfl := List.mem_singleton.mp hs
  refine ⟨by decide, hsix (by decide), fun b hb => ?_⟩
  rcases List.mem_pair.mp hb with rfl | rfl <;> exact hsix (by decide)

/-- A series that counts nothing yet is a point of one encoding only, and a sum of seven digits is
rounded in one. -/
theorem points_differ :
    (jsonPoints (jsonText (requests [⟨[], 0, ⟨0, by decide⟩, fun _ => 0⟩])) = some [] ∧
      pbPoints (metricsEnvelopeEncode (requests [⟨[], 0, ⟨0, by decide⟩, fun _ => 0⟩])
        (encHistMetric (requests [⟨[], 0, ⟨0, by decide⟩, fun _ => 0⟩]))) =
      some [⟨1, 2, 0, some 0, [0, 0, 0], [5, 10], []⟩]) ∧
    jsonPoints (jsonText (requests [⟨[], 3, ⟨1234567, by decide⟩, fun _ => 1⟩])) =
      some [⟨1, 2, 3, some 1234570, [1, 1, 1], [5, 10], []⟩] ∧
    pbPoints (metricsEnvelopeEncode (requests [⟨[], 3, ⟨1234567, by decide⟩, fun _ => 1⟩])
        (encHistMetric (requests [⟨[], 3, ⟨1234567, by decide⟩, fun _ => 1⟩]))) =
      some [⟨1, 2, 3, some 1234567, [1, 1, 1], [5, 10], []⟩] := by
  have hrounded : rounded 1234567 = 1234570 := by
    norm_num [rounded, sixDigits, nearest]
  have hsmall : rounded 5 = 5 ∧ rounded 10 = 10 := by
    norm_num [rounded]
  refine ⟨⟨(jsonPoints_eq _).trans rfl, (pbPoints_eq _).trans ?_⟩, (jsonPoints_eq _).trans ?_,
    (pbPoints_eq _).trans ?_⟩
  · simp [requests, dataPoint, OtlpHseries.counts]
  · simp [requests, dataPoint, OtlpHseries.counts, hrounded, hsmall, List.range_succ]
  · simp [requests, dataPoint, OtlpHseries.counts, List.range_succ]

end SpinelEbpf.Otlp.Histogram

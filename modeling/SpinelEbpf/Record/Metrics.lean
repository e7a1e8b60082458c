import SpinelEbpf.Record.Layout

/-!
# Record — declared metrics

A channel's records are also aggregated into metrics.  The generator computes how many time series
a metric can have, from the values that its labels can take (`labelBound`), and stops if all metrics
together can have more than the runtime has room for (`checkMetrics`).  A label is bounded by a
permitted set that the runtime projects it to, or by a value map without a number in its rendering
of unnamed codes.

The generator's `int` sum is undefined if it overflows (`Stop.undefined`).
-/

namespace SpinelEbpf.Record

/-- Why the generator does not finish: `die`, or undefined behaviour. -/
inductive Stop where
  | died (message : String)
  | undefined
  deriving DecidableEq, Repr

/-- `die`. -/
def stop {α : Type} (msg what : String) : Except Stop α := .error (.died (die msg what))

/-- `if (c) die(msg, what)`. -/
def refuse (c : Prop) [Decidable c] (msg what : String) : Except Stop Unit :=
  if c then stop msg what else .ok ()

/-- A check of every element, in order. -/
def checkAll {α : Type} (f : α → Except Stop Unit) : List α → Except Stop Unit
  | []      => .ok ()
  | x :: xs => do
      f x
      checkAll f xs

/-- `snprintf` of a string into `cap` bytes. -/
def cut (cap : Nat) (s : String) : String := String.ofList (s.toList.take (cap - 1))

/-! ### Declarations -/

/-- `CcValueName`. -/
structure CcValueName where
  value : Int
  name : String
  deriving DecidableEq, Repr

/-- `CcValueMap`; an empty string stands for a missing one. -/
structure CcValueMap where
  id : String
  authority : String
  unknown : String
  archInvariant : Bool
  btfMode : Option String
  btfAnchor : String
  values : List CcValueName
  deriving DecidableEq, Repr

/-- `CcRecDerived`. -/
structure CcRecDerived where
  name : String
  expose : String
  fromField : String
  impl : String
  implForm : String
  residue : Option String
  cap : Int
  deriving DecidableEq, Repr

/-- `CcMetricLabel`; `values = none` is a null pointer. -/
structure CcMetricLabel where
  key : String
  fromProperty : String
  stability : String
  values : Option (List String)
  fallback : Option String
  deriving DecidableEq, Repr

/-- `CcBoundsSet`, over the numbers of the boundaries. -/
structure CcBoundsSet (V : Type) where
  id : String
  unit : String
  authority : String
  values : List V

/-- `CcRecMetric`. -/
structure CcRecMetric where
  id : String
  name : String
  kind : Option String
  unit : String
  valueFrom : Option String
  valueUnit : Option String
  bounds : Option String
  labels : List CcMetricLabel
  deriving DecidableEq, Repr

/-- A channel with its derivations and metrics. -/
structure CcMetricSchema extends CcRecSchema where
  derived : List CcRecDerived
  metrics : List CcRecMetric
  typedConsumer : Bool
  deriving DecidableEq, Repr

/-- Everything that is declared: the channels, the value maps and the bounds sets. -/
structure Declarations (V : Type) where
  channels : List CcMetricSchema
  valmaps : List CcValueMap
  bounds : List (CcBoundsSet V)

/-! ### Value maps and derivations -/

/-- The forms of a derivation. -/
inductive DerivedForm where
  | bytesStr | bytesInt | recordStr | recordInt | codeName | intExpr
  deriving DecidableEq, Repr

/-- `derived_form`. -/
def derivedForm (d : CcRecDerived) : Except Stop DerivedForm :=
  if d.implForm = "bytes_to_str" then .ok .bytesStr
  else if d.implForm = "bytes_to_int" then .ok .bytesInt
  else if d.implForm = "record_to_str" then .ok .recordStr
  else if d.implForm = "record_to_int" then .ok .recordInt
  else if d.implForm = "code_to_name" then .ok .codeName
  else if d.implForm = "int_expr" then .ok .intExpr
  else stop "unknown derivation impl_form" d.implForm

/-- `derived_takes_record`. -/
def DerivedForm.takesRecord (form : DerivedForm) : Bool :=
  form = .recordStr || form = .recordInt || form = .intExpr

/-- `derived_returns_int`. -/
def DerivedForm.returnsInt (form : DerivedForm) : Bool :=
  form = .bytesInt || form = .recordInt || form = .intExpr

/-- `derived_is_declared`. -/
def DerivedForm.isDeclared (form : DerivedForm) : Bool := form = .codeName || form = .intExpr

/-- `find_valmap`. -/
def findValmap (valmaps : List CcValueMap) (id what : String) : Except Stop CcValueMap :=
  match valmaps.find? fun m => m.id = id with
  | some m => .ok m
  | none   => stop "code_to_name derivation names an undeclared value map" what

/-- `scalar_decimal_width`. -/
def scalarDecimalWidth (ctype what : String) : Except Stop Nat :=
  match [("__u8", 3), ("__u16", 5), ("__u32", 10), ("__u64", 20), ("__s8", 4), ("__s16", 6),
      ("__s32", 11), ("__s64", 20)].find? fun row => row.1 = ctype with
  | some row => .ok row.2
  | none     => stop "a code_to_name derivation reads a field whose type is not an integer" what

/-- The literal characters and the conversions of a rendering; `none` if it has another
conversion. -/
def scanUnknown : List Char → Nat → Nat → Option (Nat × Nat)
  | [], lit, conv => some (lit, conv)
  | '%' :: '%' :: cs, lit, conv => scanUnknown cs (lit + 1) conv
  | '%' :: 'l' :: 'd' :: cs, lit, conv => scanUnknown cs lit (conv + 1)
  | '%' :: _, _, _ => none
  | _ :: cs, lit, conv => scanUnknown cs (lit + 1) conv

/-- `unknown_width`. -/
def unknownWidth (m : CcValueMap) (decWidth : Nat) : Except Stop Nat :=
  match scanUnknown m.unknown.toList 0 0 with
  | none => stop "a value map's `unknown` rendering may only use %ld (or %%)" m.id
  | some (lit, conv) =>
      if conv > 1 then stop "a value map's `unknown` rendering uses %ld more than once" m.id
      else .ok (lit + conv * decWidth)

/-- Whether `%ld` occurs. -/
def hasLd : List Char → Bool
  | [] => false
  | '%' :: 'l' :: 'd' :: _ => true
  | _ :: cs => hasLd cs

/-- The loop over the entries of a value map, with those before. -/
def checkValueNames (id : String) : List CcValueName → List CcValueName → Except Stop Unit
  | [], _ => .ok ()
  | v :: vs, seen => do
      refuse (v.name = "") "a value map entry has no name" id
      match seen.find? fun w => v.value = w.value || v.name = w.name with
      | some w =>
          if v.value = w.value then stop "a value map gives one value two names" id
          else stop "a value map gives one name to two values" id
      | none => checkValueNames id vs (seen ++ [v])

/-- `check_valmap`. -/
def checkValmap (m : CcValueMap) : Except Stop Unit := do
  refuse (m.id = "") "a value map has no id" "(anonymous)"
  refuse (m.authority = "") "a value map declares no authority" m.id
  refuse (m.unknown = "") "a value map declares no `unknown` rendering" m.id
  refuse (m.values = []) "a value map declares no values" m.id
  refuse (!m.archInvariant)
    ("a value map that is not architecture-invariant cannot be baked into a committed " ++
      "artifact -- on another architecture it would render a plausible WRONG name " ++
      "(measured: syscall 2 = io_submit on aarch64, open on x86_64, fork on " ++
      "i386/arm/ppc/s390x). Resolve it at RUNTIME on the machine that produced the record " ++
      "(glibc's strerrorname_np / sigabbrev_np do that for errno and signal), or carry the " ++
      "architecture in the portability contract. The map is") m.id
  checkValueNames m.id m.values []
  match m.btfMode with
  | none => .ok ()
  | some mode =>
      if mode ≠ "names" ∧ mode ≠ "keys" then
        stop "unknown value map btf_mode (expected \"names\" or \"keys\")" mode
      else if m.btfAnchor = "" then
        stop "a value map declares a btf_mode but no btf_anchor to find the enum by" m.id
      else .ok ()

/-- The `cap` that a `code_to_name` derivation needs: the widest name or rendering, and a NUL. -/
def neededCap (m : CcValueMap) (unknown : Nat) : Nat :=
  m.values.foldl (fun need v => if v.name.length + 1 > need then v.name.length + 1 else need)
    (unknown + 1)

/-- The part of `check_derived` that is about the field a derivation reads. -/
def checkDerivedField (valmaps : List CcValueMap) (form : DerivedForm) (d : CcRecDerived)
    (f : CcRecField) : Except Stop Unit :=
  if form ≠ .codeName then .ok ()
  else do
    let m ← findValmap valmaps d.impl d.name
    refuse (f.count > 0)
      "a code_to_name derivation reads an array field (a code is one integer)" d.fromField
    let dec ← scalarDecimalWidth f.ctype d.fromField
    let unknown ← unknownWidth m dec
    refuse (d.cap < neededCap m unknown)
      ("a code_to_name derivation declares a cap smaller than its own closed set " ++
        "needs (widest name, or the unnamed rendering of the widest value of the " ++
        "source field, + NUL)") d.name

/-- The part of `check_derived` that is about the residue class. -/
def checkResidue (form : DerivedForm) (d : CcRecDerived) : Except Stop Unit :=
  match d.residue with
  | none => stop "derivation declares no residue class" d.name
  | some residue => do
      refuse (residue ≠ "declared" ∧ residue ≠ "parse" ∧ residue ≠ "render" ∧ residue ≠ "ambient")
        "unknown residue class (declared | parse | render | ambient)" residue
      refuse (form.isDeclared ≠ decide (residue = "declared"))
        ("residue class disagrees with impl_form: a code_to_name/int_expr derivation IS " ++
          "declared and anything else is not") d.name

/-- `check_derived`; `intExprC` parses the expression of an `int_expr` derivation. -/
def checkDerived (intExprC : CcRecSchema → String → Except Stop Unit) (valmaps : List CcValueMap)
    (s : CcMetricSchema) (d : CcRecDerived) : Except Stop Unit := do
  let form ← derivedForm d
  checkResidue form d
  refuse (d.expose ≠ if form.returnsInt then "int" else "str")
    "derivation's expose type does not match its impl_form" d.name
  refuse (form.returnsInt ∧ d.cap ≠ 0)
    "an int derivation declares an output cap (capacity is for strings)" d.name
  refuse (¬ form.returnsInt ∧ d.cap ≤ 1)
    "a str derivation must declare its output cap (bytes, incl. NUL)" d.name
  refuse (s.fields.any fun f => f.expose.isSome && f.name == d.name)
    "a derivation and an exposed field claim the same property name" d.name
  if form = .intExpr then intExprC s.toCcRecSchema d.impl
  else if form.takesRecord then .ok ()
  else
    match s.fields.find? fun f => f.name = d.fromField with
    | none   => stop "derivation reads a field this record does not declare" d.fromField
    | some f => checkDerivedField valmaps form d f

/-- `find_property`: the type of a property, and the derivation that supplies it. -/
def findProperty (s : CcMetricSchema) (name : String) : Option (String × Option CcRecDerived) :=
  match s.fields.find? fun f => f.expose.isSome && f.name == name with
  | some f => some (f.expose.getD "", none)
  | none   =>
      match s.derived.find? fun d => d.name = name with
      | some d => some (d.expose, some d)
      | none   => none

/-! ### Metrics -/

/-- `SPNL_RECMETRIC_MAX_SERIES`. -/
def maxSeries : Nat := 256

/-- The loop over a permitted set, with the values before. -/
def checkPermitted (what fallback : String) : List String → List String → Except Stop Unit
  | [], _ => .ok ()
  | v :: vs, seen =>
      if v = "" then stop "a metric label's permitted set contains an empty value" what
      else if v ∈ seen then stop "a metric label's permitted set repeats a value" v
      else if v = fallback then
        stop ("a metric label's fallback is also one of its permitted values (the bound " ++
          "would then be one larger than the set can actually produce)") what
      else checkPermitted what fallback vs (seen ++ [v])

/-- The second route of `label_bound`: the property is a closed value map. -/
def closedBound (valmaps : List CcValueMap) (l : CcMetricLabel) (d : Option CcRecDerived)
    (what : String) : Except Stop Nat := do
  refuse l.fallback.isSome "a metric label declares a fallback without a permitted set" what
  let unbounded : Except Stop Nat :=
    stop ("a metric label has no permitted set and does not read a code_to_name derivation, so " ++
      "nothing bounds how many time series it can create. Either declare the permitted set " ++
      "(values + fallback), or label on a property whose value map is closed. The unbounded " ++
      "value is still available on the span, which is the shape that can carry it") what
  match d with
  | none => unbounded
  | some d =>
      let form ← derivedForm d
      if form ≠ .codeName then unbounded
      else
        let m ← findValmap valmaps d.impl d.name
        if hasLd m.unknown.toList then
          stop ("a metric label reads a value map whose `unknown` rendering keeps the number " ++
            "(\"%ld\"), so its value set is not closed: every code the map does not name " ++
            "becomes its own time series. That rendering is correct for a span attribute " ++
            "and disqualifying for a label -- declare a permitted set instead") what
        else .ok (m.values.length + 1)

/-- `label_bound`. -/
def labelBound (valmaps : List CcValueMap) (s : CcMetricSchema) (l : CcMetricLabel)
    (mwhat : String) : Except Stop Nat := do
  let what := cut 256 (s.id ++ "." ++ mwhat ++ " (label " ++ l.key ++ ")")
  refuse (l.key = "") "a metric label has no key" what
  refuse (l.fromProperty = "") "a metric label names no source property" what
  refuse (l.stability ≠ "semconv" ∧ l.stability ≠ "spinel")
    "a metric label's stability must be \"semconv\" or \"spinel\"" what
  match findProperty s l.fromProperty with
  | none =>
      stop ("a metric label reads a property this channel does not publish " ++
        "(a label may only read an exposed field or a declared derivation, so that the label " ++
        "and the span attribute are the same function's output)") what
  | some (_, d) =>
      match l.values with
      | some values => do
          refuse (values = []) "a metric label declares an empty permitted set" what
          refuse (l.fallback.getD "" = "")
            ("a metric label declares a permitted set but no fallback (a value outside the " ++
              "set has to become something, and that something is what bounds the label)") what
          checkPermitted what (l.fallback.getD "") values []
          .ok (values.length + 1)
      | none => closedBound valmaps l d what

/-- The loop of `metric_series_bound`. -/
def seriesBoundLoop (valmaps : List CcValueMap) (s : CcMetricSchema) (mid : String) :
    List CcMetricLabel → Nat → Except Stop Nat
  | [], b => .ok b
  | l :: ls, b => do
      let bound ← labelBound valmaps s l mid
      seriesBoundLoop valmaps s mid ls (if b * bound > 1000000 then 1000000 else b * bound)

/-- `metric_series_bound`. -/
def metricSeriesBound (valmaps : List CcValueMap) (s : CcMetricSchema) (m : CcRecMetric) :
    Except Stop Nat :=
  seriesBoundLoop valmaps s m.id m.labels 1

/-- `metric_is_hist`. -/
def metricIsHist (m : CcRecMetric) (s : CcMetricSchema) : Except Stop Bool :=
  let what := cut 128 (s.id ++ "." ++ if m.id = "" then "(anonymous)" else m.id)
  if m.id = "" then stop "a metric has no id" s.id
  else if m.name = "" then stop "a metric has no name" what
  else if m.unit = "" then stop "a metric declares no unit" what
  else
    match m.kind with
    | none => stop "a metric has no kind" what
    | some kind =>
        if kind = "counter" then .ok false
        else if kind = "histogram" then .ok true
        else stop "unknown metric kind (known: counter, histogram)" kind

/-- `find_bounds`. -/
def findBounds {V : Type} (bounds : List (CcBoundsSet V)) (id what : String) :
    Except Stop (CcBoundsSet V) :=
  match bounds.find? fun b => b.id = id with
  | some b => .ok b
  | none   => stop "a histogram metric names an undeclared bounds set" what

/-- `metric_scale`: whether nanoseconds are turned into seconds. -/
def metricScale (fromUnit toUnit what : String) : Except Stop Bool :=
  if fromUnit = toUnit then .ok false
  else if fromUnit = "ns" ∧ toUnit = "s" then .ok true
  else
    stop ("a histogram metric declares a unit conversion the generator does not know " ++
      "(known: identity, ns -> s)") what

/-- The part of `check_metric` that is about the value of a histogram. -/
def checkHistogram {V : Type} (bounds : List (CcBoundsSet V)) (s : CcMetricSchema)
    (m : CcRecMetric) (what : String) : Except Stop Unit :=
  match m.valueFrom, m.valueUnit, m.bounds with
  | some valueFrom, some valueUnit, some boundsId =>
      match findProperty s valueFrom with
      | none =>
          stop "a histogram metric's value_from is not a published property of this channel" what
      | some (expose, _) => do
          refuse (expose ≠ "int") "a histogram metric's value_from is not numeric" what
          let b ← findBounds bounds boundsId what
          refuse (b.unit ≠ m.unit)
            ("a histogram metric's unit differs from the unit its bounds set is " ++
              "expressed in") what
          let _ ← metricScale valueUnit m.unit what
  | _, _, _ => stop "a histogram metric must declare value_from, value_unit and bounds" what

/-- The part of `check_metric` that is about the value. -/
def checkMetricValue {V : Type} (bounds : List (CcBoundsSet V)) (s : CcMetricSchema)
    (m : CcRecMetric) (hist : Bool) (what : String) : Except Stop Unit :=
  if hist then checkHistogram bounds s m what
  else
    refuse (m.valueFrom.isSome ∨ m.valueUnit.isSome ∨ m.bounds.isSome)
      ("a counter metric declares a value (a counter counts records; declare a histogram " ++
        "if the value matters)") what

/-- The label keys of a metric, with those before. -/
def checkLabelKeys : List CcMetricLabel → List String → Except Stop Unit
  | [], _ => .ok ()
  | l :: ls, seen =>
      if l.key ∈ seen then stop "a metric declares the same label key twice" l.key
      else checkLabelKeys ls (seen ++ [l.key])

/-- `check_metric`. -/
def checkMetric {V : Type} (decls : Declarations V) (s : CcMetricSchema) (m : CcRecMetric) :
    Except Stop Unit := do
  let hist ← metricIsHist m s
  let what := cut 128 (s.id ++ "." ++ m.id)
  refuse (!s.typedConsumer)
    ("a channel declares metrics without publishing its typed consumer (a metric reads " ++
      "published properties, so there have to be some)") s.id
  checkMetricValue decls.bounds s m hist what
  checkLabelKeys m.labels []
  let _ ← metricSeriesBound decls.valmaps s m

/-- A C `int` sum of numbers that are not negative. -/
def intAdd (a b : Nat) : Except Stop Nat := if a + b < 2 ^ 31 then .ok (a + b) else .error .undefined

/-- The metrics of a channel, with the ids before and the series so far. -/
def checkChannelMetrics {V : Type} (decls : Declarations V) (s : CcMetricSchema) :
    List CcRecMetric → List String → Nat → Except Stop Nat
  | [], _, grand => .ok grand
  | m :: ms, seen, grand => do
      checkMetric decls s m
      let bound ← metricSeriesBound decls.valmaps s m
      let grand ← intAdd grand bound
      refuse (m.id ∈ seen) "a channel declares two metrics with the same id" m.id
      checkChannelMetrics decls s ms (seen ++ [m.id]) grand

/-- The channels, with those before and the series so far. -/
def checkChannels {V : Type} (decls : Declarations V) :
    List CcMetricSchema → List CcMetricSchema → Nat → Except Stop Nat
  | [], _, grand => .ok grand
  | s :: ss, earlier, grand => do
      let grand ← checkChannelMetrics decls s s.metrics [] grand
      match earlier.findSome? fun e => s.metrics.find? fun m => e.metrics.any (·.name = m.name) with
      | some m => stop "two channels declare the same metric name" m.name
      | none   => checkChannels decls ss (earlier ++ [s]) grand

/-- The check of all metrics; the result is `grand`. -/
def checkMetrics {V : Type} (decls : Declarations V) : Except Stop Nat := do
  let grand ← checkChannels decls decls.channels [] 0
  refuse (grand > maxSeries)
    ("the declared metrics can produce more time series than the runtime can hold; " ++
      "narrow a label's permitted set or drop a label")
    (toString grand ++ " declared, " ++ toString maxSeries ++ " available")
  .ok grand

/-- The numbers that values and boundaries are: a C `double`. -/
structure Arith (V : Type) where
  ofInt : Int → V
  nsToS : V → V
  zero : V
  add : V → V → V
  le : V → V → Bool
  lt : V → V → Bool

/-- The boundaries of a set are strictly ascending. -/
def ascending {V : Type} (arith : Arith V) : List V → Bool
  | a :: b :: rest => arith.lt a b && ascending arith (b :: rest)
  | _ => true

/-- The bounds sets, with the ids before. -/
def checkBounds {V : Type} (arith : Arith V) :
    List (CcBoundsSet V) → List String → Except Stop Unit
  | [], _ => .ok ()
  | b :: bs, seen =>
      if b.id = "" then stop "a bounds set has no id" "(anonymous)"
      else if b.unit = "" then stop "a bounds set declares no unit" b.id
      else if b.authority = "" then stop "a bounds set declares no authority" b.id
      else if b.values.isEmpty then stop "a bounds set declares no boundaries" b.id
      else if !ascending arith b.values then
        stop "a bounds set's boundaries are not strictly ascending" b.id
      else if b.id ∈ seen then stop "two bounds sets share an id" b.id
      else checkBounds arith bs (seen ++ [b.id])

/-- The value maps, with the ids before. -/
def checkValmaps : List CcValueMap → List String → Except Stop Unit
  | [], _ => .ok ()
  | m :: ms, seen => do
      checkValmap m
      refuse (m.id ∈ seen) "two value maps share an id" m.id
      checkValmaps ms (seen ++ [m.id])

/-- The derivations that name a value map, with their channels. -/
def codeNames {V : Type} (decls : Declarations V) : List CcRecDerived :=
  decls.channels.flatMap fun s => s.derived.filter fun d => d.implForm = "code_to_name"

/-- `check_valmaps_are_used`, after every derivation has found its map. -/
def checkValmapsAreUsed {V : Type} (decls : Declarations V) : Except Stop Unit := do
  checkAll (fun d : CcRecDerived => do let _ ← findValmap decls.valmaps d.impl d.name)
    (codeNames decls)
  match decls.valmaps.find? fun m => !(codeNames decls).any (·.impl = m.id) with
  | some m =>
      stop ("a declared value map is named by no derivation (a type with no consumer is dead " ++
        "code; delete it or give it the property it exists for)") m.id
  | none => .ok ()

/-! ### What is generated -/

/-- `spnl_metric_label_t`. -/
structure LabelDesc where
  key : String
  values : Option (List String)
  fallback : Option String
  bound : Nat
  deriving DecidableEq, Repr

/-- `spnl_metric_desc_t`. -/
structure MetricDesc (V : Type) where
  channel : String
  id : String
  name : String
  unit : String
  isHist : Bool
  bounds : List V
  labels : List LabelDesc
  seriesBound : Nat

/-- The generated tables and sizes. -/
structure Tables (V : Type) where
  metrics : List (MetricDesc V)
  maxLabels : Nat
  maxBounds : Nat
  labelValMax : Nat
  totalSeriesBound : Nat

/-- Every element is mapped, or the first that cannot be stops it. -/
def collect {α β : Type} (f : α → Except Stop β) : List α → Except Stop (List β)
  | []      => .ok []
  | x :: xs => do
      let y ← f x
      let ys ← collect f xs
      .ok (y :: ys)

/-- The entry of a label. -/
def labelDesc (valmaps : List CcValueMap) (s : CcMetricSchema) (mid : String) (l : CcMetricLabel) :
    Except Stop LabelDesc := do
  let bound ← labelBound valmaps s l mid
  match l.values with
  | some values => .ok ⟨l.key, some values, l.fallback, bound⟩
  | none        => .ok ⟨l.key, none, none, bound⟩

/-- The boundaries of a metric. -/
def metricBounds {V : Type} (decls : Declarations V) (m : CcRecMetric) (hist : Bool) :
    Except Stop (List V) :=
  if hist then (findBounds decls.bounds (m.bounds.getD "") m.id).map CcBoundsSet.values
  else .ok []

/-- The entry of a metric. -/
def metricDesc {V : Type} (decls : Declarations V) (s : CcMetricSchema) (m : CcRecMetric) :
    Except Stop (MetricDesc V) := do
  let hist ← metricIsHist m s
  let bounds ← metricBounds decls m hist
  let labels ← collect (labelDesc decls.valmaps s m.id) m.labels
  let bound ← metricSeriesBound decls.valmaps s m
  .ok ⟨s.id, m.id, m.name, m.unit, hist, bounds, labels, bound⟩

/-- All metrics with their channels, in the order of their numbers. -/
def Declarations.metrics {V : Type} (decls : Declarations V) :
    List (CcMetricSchema × CcRecMetric) :=
  decls.channels.flatMap fun s => s.metrics.map fun m => (s, m)

/-- The sizes that a label's values ask for. -/
def labelWidths (s : CcMetricSchema) (l : CcMetricLabel) : List Nat :=
  match l.values with
  | some values => values.map (fun v => v.length + 1) ++ [(l.fallback.getD "").length + 1]
  | none =>
      match findProperty s l.fromProperty with
      | some (_, some d) => [d.cap.toNat]
      | _ => []

/-- `emit_metric_tables`. -/
def emitMetricTables {V : Type} (decls : Declarations V) (grand : Nat) :
    Except Stop (Tables V) := do
  let metrics ← collect (fun sm : CcMetricSchema × CcRecMetric => metricDesc decls sm.1 sm.2)
    decls.metrics
  let maxlab := (decls.metrics.map fun sm => sm.2.labels.length).foldl max 0
  let maxbnd := (decls.bounds.map fun b => b.values.length).foldl max 0
  let maxval := (decls.metrics.flatMap fun sm => sm.2.labels.flatMap (labelWidths sm.1)).foldl max 1
  .ok ⟨metrics, if maxlab = 0 then 1 else maxlab, if maxbnd = 0 then 1 else maxbnd, maxval, grand⟩

/-- The generator, as far as metrics go. -/
def genRecordMirror {V : Type} (arith : Arith V)
    (intExprC : CcRecSchema → String → Except Stop Unit) (decls : Declarations V) :
    Except Stop (Tables V) := do
  checkValmaps decls.valmaps []
  checkValmapsAreUsed decls
  checkBounds arith decls.bounds []
  let grand ← checkMetrics decls
  checkAll (fun s : CcMetricSchema =>
    if s.typedConsumer then checkAll (checkDerived intExprC decls.valmaps s) s.derived else .ok ())
    decls.channels
  emitMetricTables decls grand

/-! ### The generated intake -/

/-- A record as the intake reads it: integer fields, the text of string fields, and what the
derivations that the runtime implements return. -/
structure Rec where
  int : String → Int
  str : String → String
  derivedStr : String → String
  derivedInt : String → Int

/-- A call of `spnl_recmetric_observe`. -/
structure Call (V : Type) where
  metric : Nat
  labelValues : List String
  hasValue : Bool
  value : V

/-- `snprintf` of a rendering with one `%ld`. -/
def sprintfLd (v : Int) : List Char → List Char
  | '%' :: '%' :: cs => '%' :: sprintfLd v cs
  | '%' :: 'l' :: 'd' :: cs => (toString v).toList ++ sprintfLd v cs
  | c :: cs => c :: sprintfLd v cs
  | [] => []

/-- The lookup that `emit_valmap` generates, into `cap` bytes. -/
def valmapName (m : CcValueMap) (v : Int) (cap : Nat) : String :=
  match m.values.find? fun e => e.value = v with
  | some e => cut cap e.name
  | none   =>
      if hasLd m.unknown.toList then cut cap (String.ofList (sprintfLd v m.unknown.toList))
      else cut cap m.unknown

/-- `label_buf_cap`. -/
def labelBufCap (s : CcMetricSchema) (l : CcMetricLabel) : Nat :=
  let cap :=
    match findProperty s l.fromProperty with
    | some (_, some d) => if d.cap > 0 then d.cap.toNat else 24
    | some (expose, none) =>
        if expose = "str" then
          match s.fields.reverse.find? fun f => f.name == l.fromProperty && decide (f.count > 0) with
          | some f => f.count + 1
          | none => 24
        else 24
    | none => 24
  match l.fallback with
  | some fallback => if fallback.length + 1 > cap then fallback.length + 1 else cap
  | none => cap

/-- `emit_label_render`: the text of a label. -/
def renderLabel (valmaps : List CcValueMap) (s : CcMetricSchema) (l : CcMetricLabel) (r : Rec) :
    String :=
  let cap := labelBufCap s l
  match findProperty s l.fromProperty with
  | none => ""
  | some (expose, none) =>
      if expose = "int" then cut cap (toString (r.int l.fromProperty))
      else cut cap (r.str l.fromProperty)
  | some (_, some d) =>
      match derivedForm d with
      | .ok .bytesStr | .ok .recordStr => cut cap (r.derivedStr d.name)
      | .ok .bytesInt | .ok .recordInt | .ok .intExpr => cut cap (toString (r.derivedInt d.name))
      | .ok .codeName =>
          match findValmap valmaps d.impl d.name with
          | .ok m => valmapName m (r.int d.fromField) cap
          | .error _ => ""
      | .error _ => ""

/-- The value that a histogram observes. -/
def renderValue {V : Type} (arith : Arith V) (s : CcMetricSchema) (m : CcRecMetric) (r : Rec) : V :=
  let valueFrom := m.valueFrom.getD ""
  let v :=
    match findProperty s valueFrom with
    | some (_, some d) => arith.ofInt (r.derivedInt d.name)
    | _ => arith.ofInt (r.int valueFrom)
  match metricScale (m.valueUnit.getD "") m.unit m.id with
  | .ok true => arith.nsToS v
  | _ => v

/-- The call for one metric. -/
def observeCall {V : Type} (arith : Arith V) (valmaps : List CcValueMap) (s : CcMetricSchema)
    (m : CcRecMetric) (metric : Nat) (r : Rec) : Call V :=
  let labelValues := m.labels.map fun l => renderLabel valmaps s l r
  match metricIsHist m s with
  | .ok true => ⟨metric, labelValues, true, renderValue arith s m r⟩
  | _ => ⟨metric, labelValues, false, arith.zero⟩

/-- `metric_base_index` of channel `c`. -/
def metricBaseIndex {V : Type} (decls : Declarations V) (c : Nat) : Nat :=
  ((decls.channels.take c).map fun s => s.metrics.length).sum

/-- `emit_metric_observe`: the calls for a record of channel `c`. -/
def observeRecord {V : Type} (arith : Arith V) (decls : Declarations V) (c : Nat) (r : Rec) :
    List (Call V) :=
  match decls.channels[c]? with
  | none => []
  | some s =>
      s.metrics.zipIdx.map fun (m, mi) =>
        observeCall arith decls.valmaps s m (metricBaseIndex decls c + mi) r

end SpinelEbpf.Record

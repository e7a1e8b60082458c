import SpinelEbpf.Record.Layout

/-!
# Record — The append-only gate

`record_gate.rb` compares two snapshots of the published contract and lists what a release may
not do to an earlier one: move, retype or remove anything that a running probe, a consumer
program or a dashboard relies on.  A snapshot keeps, of each channel, the laid-out fields and the
terms of its egress, consumer and metrics.

`violations` is the comparison.  `Compatible` is what an empty list of violations says of the
records themselves (`compatible_of_gate`): the old fields come first, where and as they were,
and no longer record is demanded.
-/

namespace SpinelEbpf.Record

/-! ### Snapshots -/

/-- A field of a snapshot. -/
structure SnapField where
  name : String
  ctype : String
  count : Nat
  offset : Nat
  bytes : Nat
  expose : String
  deriving DecidableEq, Repr

/-- How a span's times are computed. -/
structure TimingForm where
  start : String
  clock : String
  finish : String
  deriving DecidableEq, Repr

/-- An egress attribute; older snapshots hold the bare key. -/
inductive Attr where
  | bare (key : String)
  | row (key present : String)
  deriving DecidableEq, Repr

structure Egress where
  pushFn : String
  spanName : String
  spanKind : String
  timingForm : TimingForm
  dropWhen : String
  attributes : List Attr
  enrichers : List String
  deriving DecidableEq, Repr

structure Property where
  name : String
  kind : String
  expose : String
  ffi : String
  cap : Option Int
  kfilter : String
  residue : String
  deriving DecidableEq, Repr

structure Consumer where
  drainFn : String
  toSpanFn : String
  properties : List Property
  deriving DecidableEq, Repr

structure Label where
  key : String
  source : String
  deriving DecidableEq, Repr

structure Metric where
  id : String
  name : String
  kind : String
  unit : String
  valueFrom : String
  labels : List Label
  deriving DecidableEq, Repr

/-- A channel of a snapshot. -/
structure Channel where
  recordStruct : String
  ringbufMap : String
  recordMinBytes : Nat
  producers : List String
  fields : List SnapField
  egress : Option Egress
  consumer : Option Consumer
  metrics : List Metric
  deriving DecidableEq, Repr

/-- The channels of a snapshot, by id. -/
abbrev Snapshot := List (String × Channel)

/-- What a channel publishes beside its record. -/
structure Terms where
  egress : Option Egress
  consumer : Option Consumer
  metrics : List Metric
  deriving DecidableEq, Repr

/-- A placed field as `project` keeps it. -/
def snapField (p : Placed) : SnapField :=
  ⟨p.1.name, p.1.ctype, p.1.count, p.2, p.1.bytes, p.1.expose.getD ""⟩

/-- `json_channel` and `project`: the snapshot of one channel. -/
def projectChannel (s : CcRecSchema) (terms : Terms) : Except String (String × Channel) :=
  match layout s with
  | .error e => .error e
  | .ok (placed, total) =>
      match requiredBytes s placed total with
      | .error e => .error e
      | .ok req => .ok (s.id,
          { recordStruct := "<unit>_" ++ s.structSuffix, ringbufMap := "<unit>_" ++ s.mapSuffix,
            recordMinBytes := req, producers := s.producers, fields := placed.map snapField,
            egress := terms.egress, consumer := terms.consumer, metrics := terms.metrics })

/-! ### Violations -/

/-- A value a message shows. -/
inductive Value where
  | nil
  | str (s : String)
  | int (n : Int)
  | timing (t : TimingForm)
  deriving DecidableEq, Repr

/-- A line of the gate's report. -/
inductive Violation where
  | channelRemoved (id : String)
  | channelChanged (id key : String) (old new : Value)
  | fieldRemoved (id field : String)
  | fieldsReordered (id : String) (old new : List String)
  | fieldChanged (id field key : String) (old new : Value)
  | exposeChanged (id field : String) (old new : Value)
  | minBytesRose (id : String) (old new : Nat)
  | producerLost (id producer : String)
  | egressRemoved (id pushFn : String)
  | egressChanged (id key : String) (old new : Value)
  | attributeRemoved (id key : String)
  | presenceChanged (id key : String) (old new : Value)
  | egressRuleChanged (id key : String) (old new : Value)
  | enricherLost (id enricher : String)
  | residueChanged (id property old new : String)
  | metricRemoved (id metric : String)
  | metricChanged (id metric key : String) (old new : Value)
  | labelLost (id metric label : String)
  | labelMoved (id metric label old new : String)
  | consumerWithdrawn (id : String)
  | consumerChanged (id key : String) (old new : Value)
  | propertyRemoved (id property : String)
  | propertyChanged (id property key : String) (old new : Value)
  | kfilterGained (id property kfilter : String)
  | capShrank (id property : String) (old new : Int)
  deriving DecidableEq, Repr

/-- The report's text, given how a value is shown. -/
def Violation.message (inspect : Value → String) : Violation → String
  | .channelRemoved id =>
      "channel `" ++ id ++ "` was removed (a probe that emits it loses its contract)"
  | .channelChanged id key old new =>
      "channel `" ++ id ++ "`: " ++ key ++ " changed " ++ inspect old ++ " -> " ++ inspect new ++
        " (the runtime looks the map up by name)"
  | .fieldRemoved id f =>
      "channel `" ++ id ++ "`: field `" ++ f ++ "` was removed (existing records still carry it)"
  | .fieldsReordered id old new =>
      "channel `" ++ id ++ "`: fields were reordered (" ++ " ".intercalate old ++ " -> " ++
        " ".intercalate new ++ "); new fields must be APPENDED"
  | .fieldChanged id f key old new =>
      "channel `" ++ id ++ "`: field `" ++ f ++ "` " ++ key ++ " changed " ++ inspect old ++
        " -> " ++ inspect new ++ " (a record already on the wire is decoded at the old " ++ key ++
        ")"
  | .exposeChanged id f old new =>
      "channel `" ++ id ++ "`: field `" ++ f ++ "` expose changed " ++ inspect old ++ " -> " ++
        inspect new ++ " (a Ruby consumer reading ev." ++ f ++
        " changes type or stops compiling)"
  | .minBytesRose id old new =>
      "channel `" ++ id ++ "`: record_min_bytes rose " ++ toString old ++ " -> " ++ toString new ++
        " (records an older producer writes would now be dropped; " ++
        "append fields after `required_through` instead)"
  | .producerLost id p =>
      "channel `" ++ id ++ "`: producer `" ++ p ++ "` no longer writes this channel"
  | .egressRemoved id pushFn =>
      "channel `" ++ id ++ "`: the egress binding was removed (" ++ pushFn ++
        " no longer declared)"
  | .egressChanged id key old new =>
      "channel `" ++ id ++ "`: egress " ++ key ++ " changed " ++ inspect old ++ " -> " ++
        inspect new
  | .attributeRemoved id key =>
      "channel `" ++ id ++ "`: egress attribute `" ++ key ++
        "` was removed (queries and dashboards use it)"
  | .presenceChanged id key old new =>
      "channel `" ++ id ++ "`: egress attribute `" ++ key ++ "` changed WHEN it is present " ++
        inspect old ++ " -> " ++ inspect new ++ " (the key is unchanged, so nothing downstream " ++
        "errors -- it just stops appearing on records it used to describe)"
  | .egressRuleChanged id key old new =>
      "channel `" ++ id ++ "`: egress " ++ key ++ " changed " ++ inspect old ++ " -> " ++
        inspect new ++ " (a consumer computes span times / discards records from this)"
  | .enricherLost id e => "channel `" ++ id ++ "`: layer-2 enricher `" ++ e ++ "` no longer applies"
  | .residueChanged id p old new =>
      "channel `" ++ id ++ "`: property `" ++ p ++ "` was " ++ old ++ " and is now " ++ new ++
        " -- a consumer that read it from the contract now has to implement it"
  | .metricRemoved id m =>
      "channel `" ++ id ++ "`: metric `" ++ m ++
        "` was removed (dashboards and alerts query it by name)"
  | .metricChanged id m key old new =>
      "channel `" ++ id ++ "`: metric `" ++ m ++ "` " ++ key ++ " changed " ++ inspect old ++
        " -> " ++ inspect new ++ " (a renamed or re-typed metric is a broken query, not a new one)"
  | .labelLost id m l =>
      "channel `" ++ id ++ "`: metric `" ++ m ++ "` lost label `" ++ l ++
        "` (series that were distinguished by it silently merge)"
  | .labelMoved id m l old new =>
      "channel `" ++ id ++ "`: metric `" ++ m ++ "` label `" ++ l ++ "` now reads `" ++ new ++
        "` instead of `" ++ old ++ "` (same key, different meaning)"
  | .consumerWithdrawn id =>
      "channel `" ++ id ++ "`: the typed consumer was withdrawn (`on_emit :" ++ id ++
        " do |ev|` programs stop compiling)"
  | .consumerChanged id key old new =>
      "channel `" ++ id ++ "`: consumer " ++ key ++ " changed " ++ inspect old ++ " -> " ++
        inspect new
  | .propertyRemoved id p => "channel `" ++ id ++ "`: consumer property `ev." ++ p ++ "` was removed"
  | .propertyChanged id p key old new =>
      "channel `" ++ id ++ "`: consumer property `ev." ++ p ++ "` " ++ key ++ " changed " ++
        inspect old ++ " -> " ++ inspect new
  | .kfilterGained id p k =>
      "channel `" ++ id ++ "`: consumer property `ev." ++ p ++ "` gained kfilter " ++
        inspect (.str k) ++ " -- `keep_if :" ++ id ++ ", " ++ p ++
        ": :eq` stops compiling (the transform redirects it to `filter_by :" ++ k ++ "`)"
  | .capShrank id p old new =>
      "channel `" ++ id ++ "`: consumer property `ev." ++ p ++ "` cap shrank " ++ toString old ++
        " -> " ++ toString new ++ " (values longer than " ++ toString (new - 1) ++
        " bytes start truncating, in `ev." ++ p ++ "` and in the span attribute it feeds)"

/-- Ruby's difference of arrays. -/
def minus (xs ys : List String) : List String := xs.filter fun x => !ys.contains x

/-- The keys whose value changed. -/
def changes (rows : List (String × Value × Value)) (mk : String → Value → Value → Violation) :
    List Violation :=
  (rows.filter fun r => r.2.1 ≠ r.2.2).map fun r => mk r.1 r.2.1 r.2.2

/-- A hash built from rows: the last row of a key counts. -/
def lookupLast {α : Type} (key : String) (rows : List (String × α)) : Option α :=
  rows.reverse.lookup key

/-- One field against the new field of its name. -/
def fieldDiff (id : String) (o n : SnapField) : List Violation :=
  changes [("offset", .int o.offset, .int n.offset), ("bytes", .int o.bytes, .int n.bytes),
      ("ctype", .str o.ctype, .str n.ctype), ("count", .int o.count, .int n.count)]
    (.fieldChanged id o.name) ++
  -- a field that becomes exposed is additive
  if o.expose = n.expose ∨ o.expose = "" then []
  else [.exposeChanged id o.name (.str o.expose) (.str n.expose)]

/-- The fields: append-only. -/
def fieldViolations (id : String) (of nf : List SnapField) : List Violation :=
  let oname := of.map SnapField.name
  let nname := nf.map SnapField.name
  (minus oname nname).map (.fieldRemoved id) ++
  (if nname.take oname.length ≠ oname ∧ minus oname nname = [] then
    [.fieldsReordered id oname (nname.take oname.length)] else []) ++
  of.flatMap fun o =>
    match nf.find? fun x => x.name = o.name with
    | none   => []
    | some n => fieldDiff id o n

/-- An attribute's key. -/
def Attr.key : Attr → String
  | .bare k | .row k _ => k

/-- The key and the presence rule; a bare key has none. -/
def Attr.entry : Attr → String × Option String
  | .bare k  => (k, none)
  | .row k p => (k, some p)

/-- The presence rule of an attribute against the new one. -/
def presenceDiff (id : String) (nattr : List (String × Option String)) : Attr → List Violation
  | .bare _ => []
  | .row key present =>
      match lookupLast key nattr with
      | none   => []
      | some n =>
          if n = some present then []
          else [.presenceChanged id key (.str present) (n.elim .nil .str)]

/-- What leaves the process. -/
def egressViolations (id : String) : Option Egress → Option Egress → List Violation
  | none, _          => []
  | some oe, none    => [.egressRemoved id oe.pushFn]
  | some oe, some ne =>
      let nattr := ne.attributes.map Attr.entry
      changes [("push_fn", .str oe.pushFn, .str ne.pushFn),
          ("span_name", .str oe.spanName, .str ne.spanName),
          ("span_kind", .str oe.spanKind, .str ne.spanKind)] (.egressChanged id) ++
      (minus (oe.attributes.map Attr.key) (nattr.map Prod.fst)).map (.attributeRemoved id) ++
      oe.attributes.flatMap (presenceDiff id nattr) ++
      changes [("timing_form", .timing oe.timingForm, .timing ne.timingForm),
          ("drop_when", .str oe.dropWhen, .str ne.dropWhen)] (.egressRuleChanged id) ++
      (minus oe.enrichers ne.enrichers).map (.enricherLost id)

/-- Who has to implement the derived properties. -/
def residueViolations (id : String) : Option Consumer → Option Consumer → List Violation
  | some oc, some nc =>
      let nres := nc.properties.map fun p => (p.name, p.residue)
      oc.properties.flatMap fun p =>
        match lookupLast p.name nres with
        | none   => []
        | some n =>
            if p.residue = n ∨ p.residue = "" then []
            else if p.residue ≠ "declared" then []
            else [.residueChanged id p.name p.residue n]
  | _, _ => []

/-- One metric against the new metric of its id. -/
def metricDiff (id : String) (o n : Metric) : List Violation :=
  changes [("name", .str o.name, .str n.name), ("kind", .str o.kind, .str n.kind),
      ("unit", .str o.unit, .str n.unit), ("value_from", .str o.valueFrom, .str n.valueFrom)]
    (.metricChanged id o.id) ++
  (minus (o.labels.map Label.key) (n.labels.map Label.key)).map (.labelLost id o.id) ++
  o.labels.flatMap fun l =>
    match n.labels.find? fun x => x.key = l.key with
    | none    => []
    | some l' => if l.source = l'.source then [] else [.labelMoved id o.id l.key l.source l'.source]

/-- What the channel costs. -/
def metricViolations (id : String) (om nm : List Metric) : List Violation :=
  (minus (om.map Metric.id) (nm.map Metric.id)).map (.metricRemoved id) ++
  om.flatMap fun o =>
    match nm.find? fun x => x.id = o.id with
    | none   => []
    | some n => metricDiff id o n

/-- One property against the new property of its name. -/
def propertyDiff (id : String) (o n : Property) : List Violation :=
  changes [("expose", .str o.expose, .str n.expose), ("kind", .str o.kind, .str n.kind),
      ("ffi", .str o.ffi, .str n.ffi)] (.propertyChanged id o.name) ++
  (if o.kfilter = "" ∧ n.kfilter ≠ "" then [.kfilterGained id o.name n.kfilter] else []) ++
  match o.cap, n.cap with
  | some ocap, some ncap => if ncap < ocap then [.capShrank id o.name ocap ncap] else []
  | _, _ => []

/-- What a Ruby program may write. -/
def consumerViolations (id : String) : Option Consumer → Option Consumer → List Violation
  | none, _       => []
  | some _, none  => [.consumerWithdrawn id]
  | some oc, some nc =>
      changes [("drain_fn", .str oc.drainFn, .str nc.drainFn),
          ("to_span_fn", .str oc.toSpanFn, .str nc.toSpanFn)] (.consumerChanged id) ++
      (minus (oc.properties.map Property.name) (nc.properties.map Property.name)).map
        (.propertyRemoved id) ++
      oc.properties.flatMap fun o =>
        match nc.properties.find? fun x => x.name = o.name with
        | none   => []
        | some n => propertyDiff id o n

/-- The loop of `violations` over a channel both snapshots have. -/
def channelViolations (id : String) (och nch : Channel) : List Violation :=
  changes [("record_struct", .str och.recordStruct, .str nch.recordStruct),
      ("ringbuf_map", .str och.ringbufMap, .str nch.ringbufMap)] (.channelChanged id) ++
  fieldViolations id och.fields nch.fields ++
  (if nch.recordMinBytes > och.recordMinBytes then
    [.minBytesRose id och.recordMinBytes nch.recordMinBytes] else []) ++
  (minus och.producers nch.producers).map (.producerLost id) ++
  egressViolations id och.egress nch.egress ++
  residueViolations id och.consumer nch.consumer ++
  metricViolations id och.metrics nch.metrics ++
  consumerViolations id och.consumer nch.consumer

/-- `violations`. -/
def violations (old new : Snapshot) : List Violation :=
  (minus (old.map Prod.fst) (new.map Prod.fst)).map .channelRemoved ++
  new.flatMap fun c =>
    match old.lookup c.1 with
    | none     => []
    | some och => channelViolations c.1 och c.2

/-! ### What the gate lets through -/

/-- The fields of an old record are the first of the new one, in the same places. -/
def SamePlace (o n : SnapField) : Prop :=
  n.name = o.name ∧ n.offset = o.offset ∧ n.bytes = o.bytes ∧ n.ctype = o.ctype ∧
    n.count = o.count

/-- What the gate guarantees of a channel's records. -/
structure Compatible (old new : Channel) : Prop where
  names : (old.fields.map SnapField.name) <+: (new.fields.map SnapField.name)
  fields : ∀ o ∈ old.fields, ∃ n ∈ new.fields, SamePlace o n
  minBytes : new.recordMinBytes ≤ old.recordMinBytes

theorem minus_eq_nil_iff {xs ys : List String} : minus xs ys = [] ↔ xs ⊆ ys := by
  simp [minus, List.filter_eq_nil_iff, List.subset_def]

theorem changes_eq_nil_iff {rows : List (String × Value × Value)}
    {mk : String → Value → Value → Violation} :
    changes rows mk = [] ↔ ∀ r ∈ rows, r.2.1 = r.2.2 := by
  simp [changes, List.filter_eq_nil_iff]

theorem samePlace_of_fieldDiff {id : String} {o n : SnapField} (hname : n.name = o.name)
    (h : fieldDiff id o n = []) : SamePlace o n := by
  obtain ⟨hchanges, -⟩ := List.append_eq_nil_iff.mp h
  have hrows := changes_eq_nil_iff.mp hchanges
  simp only [List.forall_mem_cons, Value.int.injEq, Value.str.injEq, Nat.cast_inj] at hrows
  obtain ⟨hoff, hbytes, hctype, hcount, -⟩ := hrows
  exact ⟨hname, hoff.symm, hbytes.symm, hctype.symm, hcount.symm⟩

/-- An old field has a new field of its name, and they agree. -/
theorem compatible_of_channelViolations {id : String} {och nch : Channel}
    (h : channelViolations id och nch = []) : Compatible och nch := by
  simp only [channelViolations, List.append_eq_nil_iff] at h
  obtain ⟨⟨⟨⟨⟨⟨⟨-, hfields⟩, hmin⟩, -⟩, -⟩, -⟩, -⟩, -⟩ := h
  simp only [fieldViolations, List.append_eq_nil_iff, List.map_eq_nil_iff] at hfields
  obtain ⟨⟨hremoved, hordered⟩, hdiff⟩ := hfields
  have hsub := minus_eq_nil_iff.mp hremoved
  refine ⟨?_, fun o ho => ?_, ?_⟩
  · by_contra hpre
    have hne : (nch.fields.map SnapField.name).take (och.fields.map SnapField.name).length ≠
        och.fields.map SnapField.name := fun heq => hpre (List.prefix_iff_eq_take.mpr heq.symm)
    rw [if_pos ⟨hne, hremoved⟩] at hordered
    nomatch hordered
  · have hmem := hsub (List.mem_map_of_mem ho)
    obtain ⟨n, hn, hname⟩ := List.mem_map.mp hmem
    have hone := List.flatMap_eq_nil_iff.mp hdiff o ho
    cases hfind : nch.fields.find? fun x => x.name = o.name with
    | none =>
        have hno := List.find?_eq_none.mp hfind n hn
        exact absurd (decide_eq_true hname) hno
    | some n' =>
        rw [hfind] at hone
        have hname' : n'.name = o.name := by simpa using List.find?_some hfind
        exact ⟨n', List.mem_of_find?_eq_some hfind, samePlace_of_fieldDiff hname' hone⟩
  · by_contra hlt
    rw [if_pos (not_le.mp hlt)] at hmin
    nomatch hmin

/-- **What the gate guarantees**, channel by channel. -/
theorem compatible_of_gate {old new : Snapshot} (h : violations old new = []) {id : String}
    {och nch : Channel} (ho : old.lookup id = some och) (hn : (id, nch) ∈ new) :
    Compatible och nch := by
  obtain ⟨-, hloop⟩ := List.append_eq_nil_iff.mp h
  have hone := List.flatMap_eq_nil_iff.mp hloop (id, nch) hn
  rw [ho] at hone
  exact compatible_of_channelViolations hone

end SpinelEbpf.Record

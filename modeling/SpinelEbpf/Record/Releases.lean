import SpinelEbpf.Record.Gate
import SpinelEbpf.Support.Keyed

/-!
# Record — Releases in a row

The gate compares a release with the one before it.  A reader of an old release cares about the
distance to the newest one, so the comparison has to compose.

`SnapshotKept` says in one piece what a release owes to an earlier one: every channel, field,
attribute, property, metric and label is still there under its name, and changed at most the way its
kind allows.  It is reflexive and transitive part by part.  On snapshots in the current form
(`Snapshot.Current`: distinct names, attribute rows, a cap exactly on the derived strings) it is
what the gate checks (`violations_eq_nil_iff`), so the gate composes (`gate_composes`).

The form is needed: the gate skips a cap that is no integer, so a release that drops the cap of a
derived string hides a later smaller one.
-/

namespace SpinelEbpf.Record

open Keyed

/-! ### What a release owes to an earlier one -/

/-- A part that was published stays, related to what it was. -/
def Stays {α : Type} (R : α → α → Prop) (old new : Option α) : Prop :=
  ∀ o, old = some o → ∃ n, new = some n ∧ R o n

section

variable {α : Type} {R : α → α → Prop} {old mid new : Option α} {o n : α}

theorem Stays.refl (h : ∀ x, R x x) : Stays R old old :=
  fun o ho => ⟨o, ho, h o⟩

theorem Stays.trans (h₁ : Stays R old mid) (h₂ : Stays R mid new)
    (hR : ∀ x y z, R x y → R y z → R x z) : Stays R old new := by
  intro o ho
  obtain ⟨m, hm, hom⟩ := h₁ o ho
  obtain ⟨n, hn, hmn⟩ := h₂ m hm
  exact ⟨n, hn, hR o m n hom hmn⟩

@[simp] theorem stays_none : Stays R none new :=
  fun _ h => by cases h

@[simp] theorem not_stays_some_none : ¬ Stays R (some o) none := by
  intro h
  obtain ⟨n, hn, -⟩ := h o rfl
  cases hn

@[simp] theorem stays_some_some : Stays R (some o) (some n) ↔ R o n := by
  simp [Stays]

end

/-- A field keeps its place and type; what is exposed stays exposed as it is. -/
structure FieldKept (o n : SnapField) : Prop where
  offset : o.offset = n.offset
  bytes : o.bytes = n.bytes
  ctype : o.ctype = n.ctype
  count : o.count = n.count
  expose : o.expose = n.expose ∨ o.expose = ""

/-- An egress keeps its span, its times and every attribute with its presence rule. -/
structure EgressKept (o n : Egress) : Prop where
  pushFn : o.pushFn = n.pushFn
  spanName : o.spanName = n.spanName
  spanKind : o.spanKind = n.spanKind
  attributes : Kept Attr.key Eq o.attributes n.attributes
  timingForm : o.timingForm = n.timingForm
  dropWhen : o.dropWhen = n.dropWhen
  enrichers : o.enrichers ⊆ n.enrichers

/-- A property keeps its type and entry; it gains no kernel filter, its cap does not shrink and a
declared body stays declared. -/
structure PropertyKept (o n : Property) : Prop where
  expose : o.expose = n.expose
  kind : o.kind = n.kind
  ffi : o.ffi = n.ffi
  kfilter : o.kfilter = "" → n.kfilter = ""
  cap : Stays (· ≤ ·) o.cap n.cap
  residue : o.residue = "declared" → n.residue = "declared"

structure ConsumerKept (o n : Consumer) : Prop where
  drainFn : o.drainFn = n.drainFn
  toSpanFn : o.toSpanFn = n.toSpanFn
  properties : Kept Property.name PropertyKept o.properties n.properties

structure MetricKept (o n : Metric) : Prop where
  name : o.name = n.name
  kind : o.kind = n.kind
  unit : o.unit = n.unit
  valueFrom : o.valueFrom = n.valueFrom
  labels : Kept Label.key (fun l l' => l.source = l'.source) o.labels n.labels

structure ChannelKept (o n : Channel) : Prop where
  recordStruct : o.recordStruct = n.recordStruct
  ringbufMap : o.ringbufMap = n.ringbufMap
  names : o.fields.map SnapField.name <+: n.fields.map SnapField.name
  fields : Kept SnapField.name FieldKept o.fields n.fields
  recordMinBytes : n.recordMinBytes ≤ o.recordMinBytes
  producers : o.producers ⊆ n.producers
  egress : Stays EgressKept o.egress n.egress
  consumer : Stays ConsumerKept o.consumer n.consumer
  metrics : Kept Metric.id MetricKept o.metrics n.metrics

/-- Every channel is kept. -/
def SnapshotKept : Snapshot → Snapshot → Prop :=
  Kept Prod.fst fun o n => ChannelKept o.2 n.2

/-! ### The order -/

theorem FieldKept.refl (f : SnapField) : FieldKept f f := ⟨rfl, rfl, rfl, rfl, .inl rfl⟩

theorem FieldKept.trans {a b c : SnapField} (h₁ : FieldKept a b) (h₂ : FieldKept b c) :
    FieldKept a c where
  offset := h₁.offset.trans h₂.offset
  bytes := h₁.bytes.trans h₂.bytes
  ctype := h₁.ctype.trans h₂.ctype
  count := h₁.count.trans h₂.count
  expose := by
    rcases h₁.expose with heq | hempty
    · rw [heq]
      exact h₂.expose
    · exact .inr hempty

theorem EgressKept.refl (e : Egress) : EgressKept e e :=
  ⟨rfl, rfl, rfl, Kept.refl fun _ _ => rfl, rfl, rfl, List.Subset.refl _⟩

theorem EgressKept.trans {a b c : Egress} (h₁ : EgressKept a b) (h₂ : EgressKept b c) :
    EgressKept a c where
  pushFn := h₁.pushFn.trans h₂.pushFn
  spanName := h₁.spanName.trans h₂.spanName
  spanKind := h₁.spanKind.trans h₂.spanKind
  attributes := h₁.attributes.trans h₂.attributes fun _ _ _ => Eq.trans
  timingForm := h₁.timingForm.trans h₂.timingForm
  dropWhen := h₁.dropWhen.trans h₂.dropWhen
  enrichers := List.Subset.trans h₁.enrichers h₂.enrichers

theorem PropertyKept.refl (p : Property) : PropertyKept p p :=
  ⟨rfl, rfl, rfl, id, Stays.refl le_refl, id⟩

theorem PropertyKept.trans {a b c : Property} (h₁ : PropertyKept a b) (h₂ : PropertyKept b c) :
    PropertyKept a c where
  expose := h₁.expose.trans h₂.expose
  kind := h₁.kind.trans h₂.kind
  ffi := h₁.ffi.trans h₂.ffi
  kfilter h := h₂.kfilter (h₁.kfilter h)
  cap := h₁.cap.trans h₂.cap fun _ _ _ => le_trans
  residue h := h₂.residue (h₁.residue h)

theorem ConsumerKept.refl (c : Consumer) : ConsumerKept c c :=
  ⟨rfl, rfl, Kept.refl fun p _ => PropertyKept.refl p⟩

theorem ConsumerKept.trans {a b c : Consumer} (h₁ : ConsumerKept a b) (h₂ : ConsumerKept b c) :
    ConsumerKept a c where
  drainFn := h₁.drainFn.trans h₂.drainFn
  toSpanFn := h₁.toSpanFn.trans h₂.toSpanFn
  properties := h₁.properties.trans h₂.properties fun _ _ _ => PropertyKept.trans

theorem MetricKept.refl (m : Metric) : MetricKept m m :=
  ⟨rfl, rfl, rfl, rfl, Kept.refl fun _ _ => rfl⟩

theorem MetricKept.trans {a b c : Metric} (h₁ : MetricKept a b) (h₂ : MetricKept b c) :
    MetricKept a c where
  name := h₁.name.trans h₂.name
  kind := h₁.kind.trans h₂.kind
  unit := h₁.unit.trans h₂.unit
  valueFrom := h₁.valueFrom.trans h₂.valueFrom
  labels := h₁.labels.trans h₂.labels fun _ _ _ => Eq.trans

theorem ChannelKept.refl (c : Channel) : ChannelKept c c where
  recordStruct := rfl
  ringbufMap := rfl
  names := List.prefix_rfl
  fields := Kept.refl fun f _ => FieldKept.refl f
  recordMinBytes := le_rfl
  producers := List.Subset.refl _
  egress := Stays.refl EgressKept.refl
  consumer := Stays.refl ConsumerKept.refl
  metrics := Kept.refl fun m _ => MetricKept.refl m

theorem ChannelKept.trans {a b c : Channel} (h₁ : ChannelKept a b) (h₂ : ChannelKept b c) :
    ChannelKept a c where
  recordStruct := h₁.recordStruct.trans h₂.recordStruct
  ringbufMap := h₁.ringbufMap.trans h₂.ringbufMap
  names := h₁.names.trans h₂.names
  fields := h₁.fields.trans h₂.fields fun _ _ _ => FieldKept.trans
  recordMinBytes := h₂.recordMinBytes.trans h₁.recordMinBytes
  producers := List.Subset.trans h₁.producers h₂.producers
  egress := h₁.egress.trans h₂.egress fun _ _ _ => EgressKept.trans
  consumer := h₁.consumer.trans h₂.consumer fun _ _ _ => ConsumerKept.trans
  metrics := h₁.metrics.trans h₂.metrics fun _ _ _ => MetricKept.trans

theorem SnapshotKept.refl (s : Snapshot) : SnapshotKept s s :=
  Kept.refl fun c _ => ChannelKept.refl c.2

theorem SnapshotKept.trans {a b c : Snapshot} (h₁ : SnapshotKept a b) (h₂ : SnapshotKept b c) :
    SnapshotKept a c :=
  Kept.trans h₁ h₂ fun _ _ _ => ChannelKept.trans

/-! ### Snapshots in the current form -/

/-- A row with a key and a presence rule. -/
def Attr.isRow : Attr → Bool
  | .bare _  => false
  | .row _ _ => true

structure Egress.Current (e : Egress) : Prop where
  rows : ∀ a ∈ e.attributes, a.isRow
  keys : (e.attributes.map Attr.key).Nodup

structure Consumer.Current (c : Consumer) : Prop where
  names : (c.properties.map Property.name).Nodup
  caps : ∀ p ∈ c.properties, p.cap.isSome ↔ p.kind = "derived" ∧ p.expose = "str"

structure Channel.Current (c : Channel) : Prop where
  fields : (c.fields.map SnapField.name).Nodup
  egress : ∀ e, c.egress = some e → e.Current
  consumer : ∀ k, c.consumer = some k → k.Current
  metrics : (c.metrics.map Metric.id).Nodup
  labels : ∀ m ∈ c.metrics, (m.labels.map Label.key).Nodup

/-- The form `project` writes today. -/
structure Snapshot.Current (s : Snapshot) : Prop where
  ids : (s.map Prod.fst).Nodup
  channels : ∀ c ∈ s, c.2.Current

/-! ### The gate checks the order -/

section Parts

variable (id : String)

/-- The gate's loop over old rows: a missing key is reported apart, and the rest compared. -/
theorem loop_eq_nil_iff {α : Type} (key : α → String) {R : α → α → Prop} {old new : List α}
    (diff : α → α → List Violation) {body : α → List Violation} (hnew : (new.map key).Nodup)
    (hbody : ∀ o, body o = (new.find? fun x => key x = key o).elim [] (diff o))
    (hdiff : ∀ o ∈ old, ∀ n ∈ new, diff o n = [] ↔ R o n) :
    minus (old.map key) (new.map key) = [] ∧ old.flatMap body = [] ↔ Kept key R old new := by
  rw [kept_iff_find hnew, minus_eq_nil_iff, List.flatMap_eq_nil_iff]
  refine and_congr_right fun _ => forall₂_congr fun o ho => ?_
  rw [hbody o]
  cases hfind : new.find? fun x => key x = key o with
  | none => simp
  | some n => simp [hdiff o ho n (List.mem_of_find?_eq_some hfind)]

theorem fieldDiff_eq_nil_iff {o n : SnapField} : fieldDiff id o n = [] ↔ FieldKept o n := by
  simp only [fieldDiff, List.append_eq_nil_iff, changes_eq_nil_iff, List.forall_mem_cons,
    Value.int.injEq, Value.str.injEq, Nat.cast_inj, ite_eq_left_iff, List.cons_ne_nil, imp_false,
    not_not]
  constructor
  · rintro ⟨⟨hoffset, hbytes, hctype, hcount, -⟩, hexpose⟩
    exact ⟨hoffset, hbytes, hctype, hcount, hexpose⟩
  · rintro ⟨hoffset, hbytes, hctype, hcount, hexpose⟩
    exact ⟨⟨hoffset, hbytes, hctype, hcount, List.forall_mem_nil _⟩, hexpose⟩

theorem fieldViolations_eq_nil_iff {of nf : List SnapField}
    (hnew : (nf.map SnapField.name).Nodup) :
    fieldViolations id of nf = [] ↔
      of.map SnapField.name <+: nf.map SnapField.name ∧ Kept SnapField.name FieldKept of nf := by
  simp only [fieldViolations, List.append_eq_nil_iff, List.map_eq_nil_iff]
  rw [and_assoc, and_left_comm, loop_eq_nil_iff SnapField.name (fieldDiff id) hnew
    (fun o => by cases nf.find? fun x => x.name = o.name <;> rfl)
    fun o _ n _ => fieldDiff_eq_nil_iff id]
  refine and_congr_left fun hkept => ?_
  have hremoved : minus (of.map SnapField.name) (nf.map SnapField.name) = [] :=
    minus_eq_nil_iff.mpr ((kept_iff_find hnew).mp hkept).1
  rw [List.prefix_iff_eq_take, ite_eq_right_iff]
  constructor
  · intro h
    by_contra hne
    exact List.cons_ne_nil _ _ (h ⟨Ne.symm hne, hremoved⟩)
  · intro heq h
    exact absurd heq.symm h.1

theorem map_fst_entry (attrs : List Attr) :
    (attrs.map Attr.entry).map Prod.fst = attrs.map Attr.key := by
  rw [List.map_map]
  exact List.map_congr_left fun a _ => by cases a <;> rfl

/-- Of attribute rows with distinct keys, the last of a key is the only one. -/
theorem lookupLast_entry {attrs : List Attr} (hkeys : (attrs.map Attr.key).Nodup) {key : String}
    {present : Option String} :
    lookupLast key (attrs.map Attr.entry) = some present ↔
      (key, present) ∈ attrs.map Attr.entry := by
  rw [lookupLast, lookup_eq_some_iff, List.mem_reverse]
  rw [List.map_reverse, map_fst_entry]
  exact List.nodup_reverse.mpr hkeys

/-- An attribute row against the new rows. -/
theorem presenceDiff_eq_nil_iff {attrs : List Attr} (hkeys : (attrs.map Attr.key).Nodup)
    (hrows : ∀ a ∈ attrs, a.isRow) {a : Attr} (ha : a.isRow) :
    (a.key ∈ attrs.map Attr.key ∧ presenceDiff id (attrs.map Attr.entry) a = []) ↔
      ∃ n ∈ attrs, n.key = a.key ∧ a = n := by
  cases a with
  | bare k => cases ha
  | row k p =>
      constructor
      · rintro ⟨hmem, hdiff⟩
        obtain ⟨n, hn, hkey⟩ := List.mem_map.mp hmem
        cases n with
        | bare k' => cases hrows _ hn
        | row k' p' =>
            cases (show k' = k from hkey)
            have hlook := (lookupLast_entry hkeys).mpr (List.mem_map_of_mem hn)
            simp only [presenceDiff, hlook, ite_eq_left_iff, List.cons_ne_nil, imp_false,
              not_not, Option.some.injEq] at hdiff
            exact ⟨_, hn, rfl, by rw [hdiff]⟩
      · rintro ⟨n, hn, -, rfl⟩
        have hlook := (lookupLast_entry hkeys).mpr (List.mem_map_of_mem hn)
        refine ⟨List.mem_map_of_mem hn, ?_⟩
        simp only [presenceDiff, hlook, if_true]

/-- The attributes: none removed, none present on other records. -/
theorem attributes_kept_iff {old new : List Attr} (hold : ∀ a ∈ old, a.isRow)
    (hkeys : (new.map Attr.key).Nodup) (hrows : ∀ a ∈ new, a.isRow) :
    old.map Attr.key ⊆ (new.map Attr.entry).map Prod.fst ∧
      (∀ a ∈ old, presenceDiff id (new.map Attr.entry) a = []) ↔ Kept Attr.key Eq old new := by
  rw [map_fst_entry, List.subset_def, List.forall_mem_map, ← forall₂_and]
  exact forall₂_congr fun a ha => presenceDiff_eq_nil_iff id hkeys hrows (hold a ha)

theorem egressViolations_eq_nil_iff {oe ne : Option Egress}
    (hold : ∀ e, oe = some e → e.Current) (hnew : ∀ e, ne = some e → e.Current) :
    egressViolations id oe ne = [] ↔ Stays EgressKept oe ne := by
  cases oe with
  | none => simp [egressViolations]
  | some oe =>
      cases ne with
      | none => simp [egressViolations]
      | some ne =>
          obtain ⟨horows, -⟩ := hold oe rfl
          obtain ⟨hnrows, hnkeys⟩ := hnew ne rfl
          have hattrs := attributes_kept_iff id horows hnkeys hnrows
          simp only [egressViolations, stays_some_some, List.append_eq_nil_iff,
            changes_eq_nil_iff, List.map_eq_nil_iff, minus_eq_nil_iff, List.flatMap_eq_nil_iff,
            List.forall_mem_cons, Value.str.injEq, Value.timing.injEq]
          constructor
          · rintro ⟨⟨⟨⟨⟨hpush, hname, hkind, -⟩, hkept⟩, hpresent⟩, htiming, hdrop, -⟩, henrich⟩
            exact ⟨hpush, hname, hkind, hattrs.mp ⟨hkept, hpresent⟩, htiming, hdrop, henrich⟩
          · rintro ⟨hpush, hname, hkind, hkept, htiming, hdrop, henrich⟩
            obtain ⟨hkept, hpresent⟩ := hattrs.mpr hkept
            exact ⟨⟨⟨⟨⟨hpush, hname, hkind, List.forall_mem_nil _⟩, hkept⟩, hpresent⟩, htiming,
              hdrop, List.forall_mem_nil _⟩, henrich⟩

theorem metricDiff_eq_nil_iff {o n : Metric} (hnew : (n.labels.map Label.key).Nodup) :
    metricDiff id o n = [] ↔ MetricKept o n := by
  simp only [metricDiff, List.append_eq_nil_iff, List.map_eq_nil_iff, and_assoc]
  rw [loop_eq_nil_iff Label.key (fun l l' => if l.source = l'.source then []
      else [.labelMoved id o.id l.key l.source l'.source])
    (R := fun l l' => l.source = l'.source) hnew
    (fun l => by cases n.labels.find? fun x => x.key = l.key <;> rfl)
    fun l _ l' _ => by simp]
  simp only [changes_eq_nil_iff, List.forall_mem_cons, Value.str.injEq]
  constructor
  · rintro ⟨⟨hname, hkind, hunit, hfrom, -⟩, hlabels⟩
    exact ⟨hname, hkind, hunit, hfrom, hlabels⟩
  · rintro ⟨hname, hkind, hunit, hfrom, hlabels⟩
    exact ⟨⟨hname, hkind, hunit, hfrom, List.forall_mem_nil _⟩, hlabels⟩

theorem metricViolations_eq_nil_iff {om nm : List Metric} (hnew : (nm.map Metric.id).Nodup)
    (hlabels : ∀ m ∈ nm, (m.labels.map Label.key).Nodup) :
    metricViolations id om nm = [] ↔ Kept Metric.id MetricKept om nm := by
  simp only [metricViolations, List.append_eq_nil_iff, List.map_eq_nil_iff]
  exact loop_eq_nil_iff Metric.id (metricDiff id) hnew
    (fun o => by cases nm.find? fun x => x.id = o.id <;> rfl)
    fun o _ n hn => metricDiff_eq_nil_iff id (hlabels n hn)

/-- A cap is compared when both are integers, which they are on the same properties. -/
theorem propertyDiff_eq_nil_iff {o n : Property}
    (ho : o.cap.isSome ↔ o.kind = "derived" ∧ o.expose = "str")
    (hn : n.cap.isSome ↔ n.kind = "derived" ∧ n.expose = "str") :
    (propertyDiff id o n = [] ∧ (o.residue = "declared" → n.residue = "declared")) ↔
      PropertyKept o n := by
  simp only [propertyDiff, List.append_eq_nil_iff, changes_eq_nil_iff, List.forall_mem_cons,
    Value.str.injEq, ite_eq_right_iff, List.cons_ne_nil, imp_false, not_and, not_not]
  constructor
  · rintro ⟨⟨⟨⟨hexpose, hkind, hffi, -⟩, hkfilter⟩, hcap⟩, hresidue⟩
    refine ⟨hexpose, hkind, hffi, hkfilter, ?_, hresidue⟩
    intro ocap hocap
    have hsome : n.cap.isSome := by
      rw [hn, ← hkind, ← hexpose, ← ho, hocap]
      rfl
    obtain ⟨ncap, hncap⟩ := Option.isSome_iff_exists.mp hsome
    rw [hocap, hncap] at hcap
    simp only [ite_eq_right_iff, List.cons_ne_nil, imp_false, not_lt] at hcap
    exact ⟨ncap, hncap, hcap⟩
  · rintro ⟨hexpose, hkind, hffi, hkfilter, hcap, hresidue⟩
    refine ⟨⟨⟨⟨hexpose, hkind, hffi, List.forall_mem_nil _⟩, hkfilter⟩, ?_⟩, hresidue⟩
    cases hocap : o.cap with
    | none => rfl
    | some ocap =>
        obtain ⟨ncap, hncap, hle⟩ := hcap ocap hocap
        simp only [hncap, if_neg (not_lt.mpr hle)]

/-- A declared residue stays declared wherever the property is still there. -/
theorem residueViolations_eq_nil_iff {oc nc : Consumer}
    (hnew : (nc.properties.map Property.name).Nodup) :
    residueViolations id (some oc) (some nc) = [] ↔
      ∀ o ∈ oc.properties, ∀ n ∈ nc.properties, n.name = o.name →
        o.residue = "declared" → n.residue = "declared" := by
  have hlook : ∀ {key residue : String},
      lookupLast key (nc.properties.map fun p => (p.name, p.residue)) = some residue ↔
        ∃ n ∈ nc.properties, n.name = key ∧ n.residue = residue := by
    intro key residue
    rw [lookupLast, lookup_eq_some_iff, List.mem_reverse, List.mem_map]
    · simp only [Prod.mk.injEq]
    · rw [List.map_reverse, List.map_map]
      exact List.nodup_reverse.mpr hnew
  simp only [residueViolations, List.flatMap_eq_nil_iff]
  refine forall₂_congr fun o _ => ?_
  cases hfound : lookupLast o.name (nc.properties.map fun p => (p.name, p.residue)) with
  | none =>
      refine iff_of_true rfl fun n hn hname => ?_
      have hsome := hlook.mpr ⟨n, hn, hname, rfl⟩
      rw [hfound] at hsome
      cases hsome
  | some residue =>
      obtain ⟨m, hm, hmname, rfl⟩ := hlook.mp hfound
      constructor
      · intro h n hn hname hdeclared
        cases List.inj_on_of_nodup_map hnew hm hn (hmname.trans hname.symm)
        by_contra hne
        simp [hdeclared, Ne.symm hne] at h
      · intro h
        by_cases hdeclared : o.residue = "declared"
        · simp [hdeclared, h m hm hmname hdeclared]
        · simp [hdeclared]

theorem consumerViolations_eq_nil_iff {oc nc : Option Consumer}
    (hold : ∀ c, oc = some c → c.Current) (hnew : ∀ c, nc = some c → c.Current) :
    residueViolations id oc nc = [] ∧ consumerViolations id oc nc = [] ↔
      Stays ConsumerKept oc nc := by
  cases oc with
  | none => simp [residueViolations, consumerViolations]
  | some oc =>
      cases nc with
      | none => simp [consumerViolations]
      | some nc =>
          obtain ⟨-, hocaps⟩ := hold oc rfl
          obtain ⟨hnames, hncaps⟩ := hnew nc rfl
          rw [residueViolations_eq_nil_iff id hnames, stays_some_some]
          simp only [consumerViolations, List.append_eq_nil_iff, List.map_eq_nil_iff, and_assoc]
          rw [loop_eq_nil_iff Property.name (propertyDiff id) (R := fun o n =>
              propertyDiff id o n = []) hnames
            (fun o => by cases nc.properties.find? fun x => x.name = o.name <;> rfl)
            fun o _ n _ => Iff.rfl]
          simp only [changes_eq_nil_iff, List.forall_mem_cons, Value.str.injEq]
          constructor
          · rintro ⟨hresidue, ⟨hdrain, hspan, -⟩, hkept⟩
            refine ⟨hdrain, hspan, fun o ho => ?_⟩
            obtain ⟨n, hn, hname, hdiff⟩ := hkept o ho
            exact ⟨n, hn, hname, (propertyDiff_eq_nil_iff id (hocaps o ho) (hncaps n hn)).mp
              ⟨hdiff, hresidue o ho n hn hname⟩⟩
          · rintro ⟨hdrain, hspan, hkept⟩
            refine ⟨fun o ho n hn hname => ?_, ⟨hdrain, hspan, List.forall_mem_nil _⟩,
              fun o ho => ?_⟩
            · obtain ⟨m, hm, hmname, hp⟩ := hkept o ho
              cases List.inj_on_of_nodup_map hnames hm hn (hmname.trans hname.symm)
              exact hp.residue
            · obtain ⟨n, hn, hname, hp⟩ := hkept o ho
              exact ⟨n, hn, hname,
                ((propertyDiff_eq_nil_iff id (hocaps o ho) (hncaps n hn)).mpr hp).1⟩

theorem channelViolations_eq_nil_iff {och nch : Channel} (hold : och.Current)
    (hnew : nch.Current) : channelViolations id och nch = [] ↔ ChannelKept och nch := by
  simp only [channelViolations, List.append_eq_nil_iff, List.map_eq_nil_iff, minus_eq_nil_iff,
    changes_eq_nil_iff, List.forall_mem_cons, Value.str.injEq,
    fieldViolations_eq_nil_iff id hnew.fields,
    egressViolations_eq_nil_iff id hold.egress hnew.egress,
    metricViolations_eq_nil_iff id hnew.metrics hnew.labels, ite_eq_right_iff, List.cons_ne_nil,
    imp_false, not_lt]
  have hconsumer := consumerViolations_eq_nil_iff id hold.consumer hnew.consumer
  constructor
  · rintro ⟨⟨⟨⟨⟨⟨⟨⟨hstruct, hmap, -⟩, hnames, hfields⟩, hmin⟩, hproducers⟩, hegress⟩, hresidue⟩,
      hmetrics⟩, hcons⟩
    exact ⟨hstruct, hmap, hnames, hfields, hmin, hproducers, hegress,
      hconsumer.mp ⟨hresidue, hcons⟩, hmetrics⟩
  · rintro ⟨hstruct, hmap, hnames, hfields, hmin, hproducers, hegress, hcons, hmetrics⟩
    obtain ⟨hresidue, hcons⟩ := hconsumer.mpr hcons
    exact ⟨⟨⟨⟨⟨⟨⟨⟨hstruct, hmap, List.forall_mem_nil _⟩, hnames, hfields⟩, hmin⟩, hproducers⟩,
      hegress⟩, hresidue⟩, hmetrics⟩, hcons⟩

end Parts

/-- **What the gate checks**, on snapshots in the current form. -/
theorem violations_eq_nil_iff {old new : Snapshot} (hold : Snapshot.Current old)
    (hnew : Snapshot.Current new) : violations old new = [] ↔ SnapshotKept old new := by
  rw [SnapshotKept, kept_iff_lookup hold.ids hnew.ids, violations, List.append_eq_nil_iff,
    List.map_eq_nil_iff, minus_eq_nil_iff, List.flatMap_eq_nil_iff]
  refine and_congr_right fun _ => forall₂_congr fun n hn => ?_
  cases hlook : old.lookup n.1 with
  | none => simp
  | some och =>
      have hoch := hold.channels _ ((lookup_eq_some_iff hold.ids).mp hlook)
      simp [channelViolations_eq_nil_iff n.1 hoch (hnew.channels n hn)]

/-- The newest release of a chain that passes the gate link by link is kept against the first. -/
theorem snapshotKept_getLast {s : Snapshot} {rest : List Snapshot}
    (hcurrent : ∀ r ∈ s :: rest, Snapshot.Current r)
    (hchain : (s :: rest).IsChain fun a b => violations a b = []) :
    SnapshotKept s ((s :: rest).getLast (List.cons_ne_nil s rest)) := by
  induction rest generalizing s with
  | nil => exact SnapshotKept.refl s
  | cons t rest ih =>
      obtain ⟨hstep, hrest⟩ := List.isChain_cons_cons.mp hchain
      have hs := hcurrent s List.mem_cons_self
      have ht := hcurrent t (List.mem_cons_of_mem s List.mem_cons_self)
      have hlast := ih (fun r hr => hcurrent r (List.mem_cons_of_mem s hr)) hrest
      rw [List.getLast_cons (List.cons_ne_nil t rest)]
      exact ((violations_eq_nil_iff hs ht).mp hstep).trans hlast

/-- **The gate composes.**  On snapshots in the current form, passing the gate is reflexive and
transitive, and of a chain of releases that pass link by link the last passes against the first. -/
theorem gate_composes :
    (∀ a, Snapshot.Current a → violations a a = []) ∧
    (∀ a b c, Snapshot.Current a → Snapshot.Current b → Snapshot.Current c →
      violations a b = [] → violations b c = [] → violations a c = []) ∧
    (∀ (s : Snapshot) (rest : List Snapshot), (∀ r ∈ s :: rest, Snapshot.Current r) →
      (s :: rest).IsChain (fun a b => violations a b = []) →
      violations s ((s :: rest).getLast (List.cons_ne_nil s rest)) = []) := by
  refine ⟨fun a ha => ?_, fun a b c ha hb hc hab hbc => ?_, fun s rest hcurrent hchain => ?_⟩
  · exact (violations_eq_nil_iff ha ha).mpr (SnapshotKept.refl a)
  · have hab' := (violations_eq_nil_iff ha hb).mp hab
    have hbc' := (violations_eq_nil_iff hb hc).mp hbc
    exact (violations_eq_nil_iff ha hc).mpr (hab'.trans hbc')
  · have hlast := hcurrent _ (List.getLast_mem (List.cons_ne_nil s rest))
    exact (violations_eq_nil_iff (hcurrent s List.mem_cons_self) hlast).mpr
      (snapshotKept_getLast hcurrent hchain)

/-- A channel whose one property is the derived string `name`, of capacity `cap`. -/
def namedChannel (cap : Option Int) (producers : List String) : Channel :=
  { recordStruct := "<unit>_rec", ringbufMap := "<unit>_rb", recordMinBytes := 8,
    producers := producers, fields := [⟨"name", "char", 8, 0, 8, ""⟩],
    egress := some ⟨"push", "span", "internal", ⟨"start", "ktime", "end"⟩, "never",
      [.row "name" "nonempty(name)"], []⟩,
    consumer := some ⟨"drain", "span", [⟨"name", "derived", "str", "ffi", cap, "", "declared"⟩]⟩,
    metrics := [] }

/-- Three releases: the cap grows, then a producer joins. -/
theorem gate_composes_three :
    Snapshot.Current [("conn", namedChannel (some 16) [])] ∧
    Snapshot.Current [("conn", namedChannel (some 32) ["probe"])] ∧
    violations [("conn", namedChannel (some 16) [])]
      [("conn", namedChannel (some 32) ["probe"])] = [] := by
  have hcurrent : ∀ (cap : Int) (ps : List String),
      Snapshot.Current [("conn", namedChannel (some cap) ps)] := by
    intro cap ps
    refine ⟨by simp, fun c hc => ?_⟩
    cases List.mem_singleton.mp hc
    refine ⟨by simp [namedChannel], ?_, ?_, by simp [namedChannel], by simp [namedChannel]⟩
    · rintro e he
      cases Option.some.inj he
      exact ⟨by simp [Attr.isRow], by simp⟩
    · rintro c hc
      cases Option.some.inj hc
      exact ⟨by simp, by simp⟩
  refine ⟨hcurrent 16 [], hcurrent 32 ["probe"], ?_⟩
  exact gate_composes.2.1 _ _ _ (hcurrent 16 []) (hcurrent 32 []) (hcurrent 32 ["probe"])
    (by decide) (by decide)

example :
    violations [("conn", namedChannel (some 16) [])] [("conn", namedChannel none [])] = [] ∧
    violations [("conn", namedChannel none [])] [("conn", namedChannel (some 8) [])] = [] ∧
    violations [("conn", namedChannel (some 16) [])] [("conn", namedChannel (some 8) [])] ≠ [] := by
  decide

end SpinelEbpf.Record

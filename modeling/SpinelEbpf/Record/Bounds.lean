import SpinelEbpf.Support.Checked
import SpinelEbpf.Record.Metrics

/-!
# Record — what the computed bounds say

A label of an accepted declaration takes one of `labelValues`, whose number is what `labelBound`
returns and which all fit the width that the tables are generated with.  The labels of a metric
together take one of a product of such lists, so all metrics have at most `totalSeriesBound` series
(`length_seriesKeys`).
-/

namespace SpinelEbpf.Record
open Checked

variable {u : Unit} {d : CcRecDerived} {b r : Nat}

section Checks

theorem refuse_ok {c : Prop} [Decidable c] {msg what : String} (h : refuse c msg what = .ok u) :
    ¬ c := by
  intro hc
  rw [refuse, if_pos hc] at h
  cases h

theorem checkAll_ok {α : Type} {f : α → Except Stop Unit} {xs : List α}
    (h : checkAll f xs = .ok u) : ∀ x ∈ xs, f x = .ok () := by
  induction xs generalizing u with
  | nil => exact fun x hx => absurd hx List.not_mem_nil
  | cons x xs ih =>
      obtain ⟨_, hx, hxs⟩ := bind_ok h
      exact List.forall_mem_cons.mpr ⟨hx, ih hxs⟩

theorem collect_ok {α β : Type} {f : α → Except Stop β} {xs : List α} {ys : List β}
    (h : collect f xs = .ok ys) : List.Forall₂ (fun x y => f x = .ok y) xs ys := by
  induction xs generalizing ys with
  | nil =>
      cases h
      exact .nil
  | cons x xs ih =>
      obtain ⟨y, hy, hrest⟩ := bind_ok h
      obtain ⟨ys', hys, hlast⟩ := bind_ok hrest
      cases hlast
      exact .cons hy (ih hys)

theorem forall₂_getElem? {α β : Type} {R : α → β → Prop} {xs : List α} {ys : List β}
    (h : List.Forall₂ R xs ys) {i : Nat} {x : α} (hx : xs[i]? = some x) :
    ∃ y, ys[i]? = some y ∧ R x y := by
  induction h generalizing i with
  | nil => cases hx
  | cons hxy _ ih =>
      cases i with
      | zero =>
          obtain rfl := Option.some.inj hx
          exact ⟨_, rfl, hxy⟩
      | succ i => exact ih hx

theorem exists_of_forall₂ {α β : Type} {R : α → β → Prop} {xs : List α} {ys : List β}
    (h : List.Forall₂ R xs ys) {x : α} (hx : x ∈ xs) : ∃ y ∈ ys, R x y := by
  obtain ⟨i, hi⟩ := List.mem_iff_getElem?.mp hx
  obtain ⟨y, hy, hxy⟩ := forall₂_getElem? h hi
  exact ⟨y, List.mem_of_getElem? hy, hxy⟩

theorem cut_eq_self {cap : Nat} {s : String} (h : s.length < cap) : cut cap s = s := by
  rw [cut, List.take_of_length_le (by rw [String.length_toList]; omega), String.ofList_toList]

theorem length_cut_lt {cap : Nat} (hcap : 0 < cap) (s : String) : (cut cap s).length < cap := by
  rw [cut, String.length_ofList, List.length_take]
  omega

end Checks

/-! ### The values of a label -/

/-- The values that a label can take: its permitted set and the fallback, or the names of its value
map and the rendering of other codes, as they come out of the label's buffer. -/
def labelValues (valmaps : List CcValueMap) (s : CcMetricSchema) (l : CcMetricLabel) :
    List String :=
  match l.values with
  | some values => values ++ [l.fallback.getD ""]
  | none =>
      match findProperty s l.fromProperty with
      | some (_, some d) =>
          match findValmap valmaps d.impl d.name with
          | .ok m => (m.values.map CcValueName.name ++ [m.unknown]).map (cut (labelBufCap s l))
          | .error _ => []
      | _ => []

/-- A label without a permitted set is a closed value map. -/
structure Closed (valmaps : List CcValueMap) (s : CcMetricSchema) (l : CcMetricLabel)
    (d : CcRecDerived) (m : CcValueMap) : Prop where
  fallback : l.fallback = none
  property : ∃ expose, findProperty s l.fromProperty = some (expose, some d)
  form : derivedForm d = .ok .codeName
  map : findValmap valmaps d.impl d.name = .ok m
  closed : hasLd m.unknown.toList = false

section Label

variable {valmaps : List CcValueMap} {s : CcMetricSchema} {l : CcMetricLabel} {mid : String}
  {b : Nat}

/-- What an accepted label is. -/
theorem labelBound_ok (h : labelBound valmaps s l mid = .ok b) :
    (∃ values, l.values = some values ∧ b = values.length + 1) ∨
      (l.values = none ∧ ∃ d m, Closed valmaps s l d m ∧ b = m.values.length + 1) := by
  obtain ⟨_, -, h⟩ := bind_ok h
  obtain ⟨_, -, h⟩ := bind_ok h
  obtain ⟨_, -, h⟩ := bind_ok h
  cases hproperty : findProperty s l.fromProperty with
  | none =>
      rw [hproperty] at h
      cases h
  | some found =>
      obtain ⟨expose, derived⟩ := found
      rw [hproperty] at h
      cases hvalues : l.values with
      | some values =>
          rw [hvalues] at h
          obtain ⟨_, -, h⟩ := bind_ok h
          obtain ⟨_, -, h⟩ := bind_ok h
          obtain ⟨_, -, h⟩ := bind_ok h
          cases h
          exact .inl ⟨values, rfl, rfl⟩
      | none =>
          rw [hvalues] at h
          obtain ⟨_, hfallback, h⟩ := bind_ok h
          cases derived with
          | none => cases h
          | some d =>
              obtain ⟨form, hform, h⟩ := bind_ok h
              by_cases hcode : form = .codeName
              · subst hcode
                rw [if_neg (not_not.mpr rfl)] at h
                obtain ⟨m, hm, h⟩ := bind_ok h
                cases hopen : hasLd m.unknown.toList with
                | true =>
                    rw [if_pos hopen] at h
                    cases h
                | false =>
                    rw [hopen, if_neg Bool.false_ne_true] at h
                    cases h
                    refine .inr ⟨rfl, d, m, ⟨?_, ⟨expose, hproperty⟩, hform, hm, hopen⟩, rfl⟩
                    exact Option.not_isSome_iff_eq_none.mp (refuse_ok hfallback)
              · rw [if_pos hcode] at h
                cases h

theorem Closed.labelValues_eq {m : CcValueMap} (h : Closed valmaps s l d m)
    (hvalues : l.values = none) :
    labelValues valmaps s l =
      (m.values.map CcValueName.name ++ [m.unknown]).map (cut (labelBufCap s l)) := by
  obtain ⟨expose, hproperty⟩ := h.property
  simp only [labelValues, hvalues, hproperty, h.map]

/-- **The bound of a label is the number of its values.** -/
theorem labelBound_eq (h : labelBound valmaps s l mid = .ok b) :
    b = (labelValues valmaps s l).length := by
  rcases labelBound_ok h with ⟨values, hvalues, rfl⟩ | ⟨hvalues, d, m, hclosed, rfl⟩
  · rw [labelValues, hvalues, List.length_append, List.length_singleton]
  · rw [hclosed.labelValues_eq hvalues, List.length_map, List.length_append, List.length_map,
      List.length_singleton]

/-- **A rendered label of a closed value map is one of its values.** -/
theorem Closed.renderLabel_mem {m : CcValueMap} (h : Closed valmaps s l d m)
    (hvalues : l.values = none) (r : Rec) :
    renderLabel valmaps s l r ∈ labelValues valmaps s l := by
  obtain ⟨expose, hproperty⟩ := h.property
  have hrender : renderLabel valmaps s l r = valmapName m (r.int d.fromField) (labelBufCap s l) := by
    simp only [renderLabel, hproperty, h.form, h.map]
  rw [hrender, h.labelValues_eq hvalues, valmapName]
  cases hfind : m.values.find? fun e => e.value = r.int d.fromField with
  | some e =>
      refine List.mem_map_of_mem (List.mem_append_left _ ?_)
      exact List.mem_map_of_mem (List.mem_of_find?_eq_some hfind)
  | none =>
      rw [h.closed, if_neg Bool.false_ne_true]
      exact List.mem_map_of_mem (List.mem_append_right _ (List.mem_singleton.mpr rfl))

/-- A string derivation that was checked has room for a character and a NUL. -/
theorem checkDerived_cap {intExprC : CcRecSchema → String → Except Stop Unit}
    (h : checkDerived intExprC valmaps s d = .ok u) (hform : derivedForm d = .ok .codeName) :
    1 < d.cap := by
  obtain ⟨form, hform', h⟩ := bind_ok h
  obtain rfl : form = .codeName := Except.ok.inj (hform'.symm.trans hform)
  obtain ⟨_, -, h⟩ := bind_ok h
  obtain ⟨_, -, h⟩ := bind_ok h
  obtain ⟨_, -, h⟩ := bind_ok h
  obtain ⟨_, hcap, -⟩ := bind_ok h
  have := refuse_ok hcap
  by_contra hle
  exact this ⟨by decide, not_lt.mp hle⟩

theorem le_foldl_max (xs : List Nat) (a : Nat) :
    a ≤ xs.foldl max a ∧ ∀ x ∈ xs, x ≤ xs.foldl max a := by
  induction xs generalizing a with
  | nil => exact ⟨le_rfl, fun x hx => absurd hx List.not_mem_nil⟩
  | cons x xs ih =>
      obtain ⟨hle, hall⟩ := ih (max a x)
      exact ⟨(le_max_left a x).trans hle,
        List.forall_mem_cons.mpr ⟨(le_max_right a x).trans hle, hall⟩⟩

/-- **The values of a label fit the width that it asks for.** -/
theorem length_lt_width {width : Nat} (h : labelBound valmaps s l mid = .ok b)
    (hcap : ∀ expose d, findProperty s l.fromProperty = some (expose, some d) →
      derivedForm d = .ok .codeName → 1 < d.cap)
    (hwidth : ∀ w ∈ labelWidths s l, w ≤ width) :
    ∀ v ∈ labelValues valmaps s l, v.length < width := by
  intro v hv
  rcases labelBound_ok h with ⟨values, hvalues, -⟩ | ⟨hvalues, d, m, hclosed, -⟩
  · rw [labelValues, hvalues] at hv
    rw [labelWidths, hvalues] at hwidth
    refine hwidth (v.length + 1) ?_
    rcases List.mem_append.mp hv with hv | hv
    · exact List.mem_append_left _ (List.mem_map_of_mem hv)
    · exact List.mem_append_right _ (List.mem_singleton.mpr (by rw [List.mem_singleton.mp hv]))
  · obtain ⟨expose, hproperty⟩ := hclosed.property
    have hpos := hcap expose d hproperty hclosed.form
    have hbuf : labelBufCap s l = d.cap.toNat := by
      simp only [labelBufCap, hproperty, hclosed.fallback]
      exact if_pos (by omega)
    rw [hclosed.labelValues_eq hvalues, hbuf] at hv
    obtain ⟨w, -, rfl⟩ := List.mem_map.mp hv
    have hle : d.cap.toNat ≤ width := by
      refine hwidth _ ?_
      simp only [labelWidths, hvalues, hproperty]
      exact List.mem_singleton.mpr rfl
    exact (length_cut_lt (by omega) w).trans_le hle

end Label

/-! ### The series of a metric -/

/-- The number of label combinations of a metric. -/
def seriesCount (valmaps : List CcValueMap) (s : CcMetricSchema) (labels : List CcMetricLabel) :
    Nat :=
  (labels.map fun l => (labelValues valmaps s l).length).prod

section Series

variable {ls : List CcMetricLabel} {valmaps : List CcValueMap} {s : CcMetricSchema} {mid : String}

theorem seriesBoundLoop_labels (h : seriesBoundLoop valmaps s mid ls b = .ok r) :
    ∀ l ∈ ls, ∃ bound, labelBound valmaps s l mid = .ok bound := by
  induction ls generalizing b with
  | nil => exact fun l hl => absurd hl List.not_mem_nil
  | cons l ls ih =>
      obtain ⟨bound, hbound, hrest⟩ := bind_ok h
      exact List.forall_mem_cons.mpr ⟨⟨bound, hbound⟩, ih hrest⟩

theorem seriesCount_cons (l : CcMetricLabel) (ls : List CcMetricLabel) :
    seriesCount valmaps s (l :: ls) =
      (labelValues valmaps s l).length * seriesCount valmaps s ls := by
  rw [seriesCount, List.map_cons, List.prod_cons, seriesCount]

/-- Accepted labels have a value. -/
theorem seriesCount_pos (h : ∀ l ∈ ls, ∃ bound, labelBound valmaps s l mid = .ok bound) :
    0 < seriesCount valmaps s ls := by
  induction ls with
  | nil => exact Nat.one_pos
  | cons l ls ih =>
      obtain ⟨⟨bound, hbound⟩, hrest⟩ := List.forall_mem_cons.mp h
      rw [seriesCount_cons, ← labelBound_eq hbound]
      refine Nat.mul_pos ?_ (ih hrest)
      rcases labelBound_ok hbound with ⟨values, -, rfl⟩ | ⟨-, d, m, -, rfl⟩ <;> exact Nat.succ_pos _

/-- The loop multiplies the bounds, or its result is at least the value at which it saturates. -/
theorem seriesBoundLoop_ok (h : seriesBoundLoop valmaps s mid ls b = .ok r) :
    r = b * seriesCount valmaps s ls ∨ 1000000 ≤ r := by
  induction ls generalizing b with
  | nil => exact .inl ((Except.ok.inj h).symm.trans (Nat.mul_one b).symm)
  | cons l ls ih =>
      obtain ⟨bound, hbound, hrest⟩ := bind_ok h
      obtain rfl := labelBound_eq hbound
      by_cases hbig : b * (labelValues valmaps s l).length > 1000000
      · rw [if_pos hbig] at hrest
        rcases ih hrest with hr | hr
        · right
          rw [hr]
          exact Nat.le_mul_of_pos_right _ (seriesCount_pos (seriesBoundLoop_labels hrest))
        · exact .inr hr
      · rw [if_neg hbig] at hrest
        rcases ih hrest with hr | hr
        · left
          rw [hr, seriesCount_cons, Nat.mul_assoc]
        · exact .inr hr

/-- **A small bound of a metric is the number of its label combinations.** -/
theorem metricSeriesBound_eq {m : CcRecMetric} (h : metricSeriesBound valmaps s m = .ok r)
    (hsmall : r < 1000000) : r = seriesCount valmaps s m.labels := by
  rcases seriesBoundLoop_ok h with hr | hr
  · rw [hr, Nat.one_mul]
  · omega

end Series

/-! ### All series -/

section All

variable {s : CcMetricSchema} {grand : Nat} {V : Type} {decls : Declarations V}

theorem intAdd_ok {a : Nat} (h : intAdd a b = .ok r) : r = a + b := by
  unfold intAdd at h
  split at h
  · exact (Except.ok.inj h).symm
  · cases h

/-- A metric that was checked: its channel is published and its labels are accepted. -/
structure Checks (decls : Declarations V) (sm : CcMetricSchema × CcRecMetric) (bound : Nat) :
    Prop where
  published : sm.1.typedConsumer = true
  bound : metricSeriesBound decls.valmaps sm.1 sm.2 = .ok bound

theorem checkMetric_published {m : CcRecMetric} (h : checkMetric decls s m = .ok u) :
    s.typedConsumer = true := by
  obtain ⟨_, -, h⟩ := bind_ok h
  obtain ⟨_, hpublished, -⟩ := bind_ok h
  simpa using refuse_ok hpublished

theorem checkChannelMetrics_ok {ms : List CcRecMetric} {seen : List String}
    (h : checkChannelMetrics decls s ms seen grand = .ok r) :
    ∃ bounds, List.Forall₂ (Checks decls) (ms.map fun m => (s, m)) bounds ∧
      r = grand + bounds.sum := by
  induction ms generalizing seen grand with
  | nil =>
      cases h
      exact ⟨[], .nil, rfl⟩
  | cons m ms ih =>
      obtain ⟨_, hmetric, h⟩ := bind_ok h
      obtain ⟨bound, hbound, h⟩ := bind_ok h
      obtain ⟨grand', hadd, h⟩ := bind_ok h
      obtain ⟨_, -, h⟩ := bind_ok h
      obtain ⟨bounds, hall, rfl⟩ := ih h
      refine ⟨bound :: bounds, .cons ⟨checkMetric_published hmetric, hbound⟩ hall, ?_⟩
      rw [intAdd_ok hadd, List.sum_cons, Nat.add_assoc]

theorem checkChannels_ok {ss earlier : List CcMetricSchema}
    (h : checkChannels decls ss earlier grand = .ok r) :
    ∃ bounds, List.Forall₂ (Checks decls) (ss.flatMap fun s => s.metrics.map fun m => (s, m))
      bounds ∧ r = grand + bounds.sum := by
  induction ss generalizing earlier grand with
  | nil =>
      cases h
      exact ⟨[], .nil, rfl⟩
  | cons s ss ih =>
      obtain ⟨grand', hchannel, h⟩ := bind_ok h
      obtain ⟨bounds, hall, rfl⟩ := checkChannelMetrics_ok hchannel
      split at h
      · cases h
      · obtain ⟨bounds', hall', rfl⟩ := ih h
        refine ⟨bounds ++ bounds', ?_, ?_⟩
        · rw [List.flatMap_cons]
          exact List.rel_append hall hall'
        · rw [List.sum_append, Nat.add_assoc]

/-- The combinations of labels of metric `i`, with its number. -/
def metricKeys (valmaps : List CcValueMap) (i : Nat) (sm : CcMetricSchema × CcRecMetric) :
    List (Nat × List String) :=
  (List.sections (sm.2.labels.map (labelValues valmaps sm.1))).map fun val => (i, val)

/-- The series that all metrics can have. -/
def seriesKeys (decls : Declarations V) : List (Nat × List String) :=
  decls.metrics.zipIdx.flatMap fun (sm, i) => metricKeys decls.valmaps i sm

theorem length_sections {α : Type} (ls : List (List α)) :
    (List.sections ls).length = (ls.map List.length).prod := by
  induction ls with
  | nil => rfl
  | cons l ls ih =>
      rw [List.sections, List.length_flatMap, List.map_cons, List.prod_cons]
      simp only [List.length_map, List.map_const', List.sum_replicate, smul_eq_mul]
      rw [ih, Nat.mul_comm]

theorem length_metricKeys (valmaps : List CcValueMap) (i : Nat)
    (sm : CcMetricSchema × CcRecMetric) :
    (metricKeys valmaps i sm).length = seriesCount valmaps sm.1 sm.2.labels := by
  rw [metricKeys, List.length_map, length_sections, List.map_map]
  rfl

theorem length_flatMap_metricKeys (valmaps : List CcValueMap)
    (sms : List (CcMetricSchema × CcRecMetric)) (k : Nat) :
    ((sms.zipIdx k).flatMap fun (sm, i) => metricKeys valmaps i sm).length =
      (sms.map fun sm => seriesCount valmaps sm.1 sm.2.labels).sum := by
  induction sms generalizing k with
  | nil => rfl
  | cons sm sms ih =>
      rw [List.zipIdx_cons, List.flatMap_cons, List.length_append, ih, length_metricKeys,
        List.map_cons, List.sum_cons]

theorem sum_seriesCount {sms : List (CcMetricSchema × CcRecMetric)} {bounds : List Nat}
    (h : List.Forall₂ (Checks decls) sms bounds) (hsmall : bounds.sum ≤ maxSeries) :
    (sms.map fun sm => seriesCount decls.valmaps sm.1 sm.2.labels).sum = bounds.sum := by
  induction h with
  | nil => rfl
  | cons hcheck hrest ih =>
      rw [List.sum_cons] at hsmall
      have hlt : maxSeries < 1000000 := by decide
      rw [List.map_cons, List.sum_cons, List.sum_cons, ih (by omega),
        metricSeriesBound_eq hcheck.bound (by omega)]

/-- **All metrics together have as many series as the generator says.** -/
theorem length_seriesKeys (h : checkMetrics decls = .ok grand) :
    (seriesKeys decls).length = grand ∧ grand ≤ maxSeries := by
  obtain ⟨r, hchannels, h⟩ := bind_ok h
  obtain ⟨_, hsmall, h⟩ := bind_ok h
  obtain rfl : r = grand := Except.ok.inj h
  have hle : r ≤ maxSeries := not_lt.mp (refuse_ok hsmall)
  obtain ⟨bounds, hall, hr⟩ := checkChannels_ok hchannels
  rw [Nat.zero_add] at hr
  refine ⟨?_, hle⟩
  rw [seriesKeys, length_flatMap_metricKeys, hr]
  exact sum_seriesCount hall (hr ▸ hle)

/-- What an accepted set of declarations guarantees for each of its metrics. -/
structure Accepted (decls : Declarations V) (t : Tables V) : Prop where
  keys : (seriesKeys decls).length = t.totalSeriesBound
  fits : t.totalSeriesBound ≤ maxSeries
  tables : List.Forall₂ (fun sm d => metricDesc decls sm.1 sm.2 = .ok d) decls.metrics t.metrics
  labels : ∀ sm ∈ decls.metrics, ∀ l ∈ sm.2.labels,
    ∃ bound, labelBound decls.valmaps sm.1 l sm.2.id = .ok bound
  widths : ∀ sm ∈ decls.metrics, ∀ l ∈ sm.2.labels, ∀ v ∈ labelValues decls.valmaps sm.1 l,
    v.length < t.labelValMax
  maxLabels : ∀ sm ∈ decls.metrics, sm.2.labels.length ≤ t.maxLabels
  maxBounds : ∀ b ∈ decls.bounds, b.values.length ≤ t.maxBounds

theorem emitMetricTables_ok {t : Tables V} (h : emitMetricTables decls grand = .ok t) :
    t.totalSeriesBound = grand ∧
      List.Forall₂ (fun sm d => metricDesc decls sm.1 sm.2 = .ok d) decls.metrics t.metrics ∧
      (∀ sm ∈ decls.metrics, ∀ l ∈ sm.2.labels, ∀ w ∈ labelWidths sm.1 l, w ≤ t.labelValMax) ∧
      (∀ sm ∈ decls.metrics, sm.2.labels.length ≤ t.maxLabels) ∧
      ∀ b ∈ decls.bounds, b.values.length ≤ t.maxBounds := by
  obtain ⟨metrics, hmetrics, h⟩ := bind_ok h
  cases h
  refine ⟨rfl, collect_ok hmetrics, fun sm hsm l hl w hw => ?_, fun sm hsm => ?_, fun b hb => ?_⟩
  · exact (le_foldl_max _ 1).2 w
      (List.mem_flatMap.mpr ⟨sm, hsm, List.mem_flatMap.mpr ⟨l, hl, hw⟩⟩)
  · have hle := (le_foldl_max (decls.metrics.map fun sm => sm.2.labels.length) 0).2 _
      (List.mem_map_of_mem hsm)
    dsimp only
    split <;> omega
  · have hle := (le_foldl_max (decls.bounds.map fun b => b.values.length) 0).2 _
      (List.mem_map_of_mem hb)
    dsimp only
    split <;> omega

theorem findProperty_derived {name expose : String}
    (h : findProperty s name = some (expose, some d)) : d ∈ s.derived := by
  unfold findProperty at h
  split at h
  · cases h
  · split at h
    · rename_i hfind
      cases h
      exact List.mem_of_find?_eq_some hfind
    · cases h

theorem mem_metrics {sm : CcMetricSchema × CcRecMetric} (h : sm ∈ decls.metrics) :
    sm.1 ∈ decls.channels := by
  obtain ⟨s, hs, hm⟩ := List.mem_flatMap.mp h
  obtain ⟨m, -, rfl⟩ := List.mem_map.mp hm
  exact hs

/-- **What the generator accepts.** -/
theorem genRecordMirror_ok {arith : Arith V} {intExprC : CcRecSchema → String → Except Stop Unit}
    {t : Tables V} (h : genRecordMirror arith intExprC decls = .ok t) : Accepted decls t := by
  obtain ⟨_, -, h⟩ := bind_ok h
  obtain ⟨_, -, h⟩ := bind_ok h
  obtain ⟨_, -, h⟩ := bind_ok h
  obtain ⟨grand, hgrand, h⟩ := bind_ok h
  obtain ⟨_, hderived, h⟩ := bind_ok h
  obtain ⟨htotal, htables, hwidths, hlabels, hbounds⟩ := emitMetricTables_ok h
  obtain ⟨hkeys, hfits⟩ := length_seriesKeys hgrand
  obtain ⟨r, hchannels, -⟩ := bind_ok hgrand
  obtain ⟨bounds, hall, -⟩ := checkChannels_ok hchannels
  have hchecks : ∀ sm ∈ decls.metrics, ∃ bound, Checks decls sm bound :=
    fun sm hsm => (exists_of_forall₂ hall hsm).imp fun _ hb => hb.2
  have hbound : ∀ sm ∈ decls.metrics, ∀ l ∈ sm.2.labels,
      ∃ bound, labelBound decls.valmaps sm.1 l sm.2.id = .ok bound := by
    intro sm hsm
    obtain ⟨bound, hcheck⟩ := hchecks sm hsm
    exact seriesBoundLoop_labels hcheck.bound
  have hcap : ∀ sm ∈ decls.metrics, ∀ d ∈ sm.1.derived, derivedForm d = .ok .codeName →
      1 < d.cap := by
    intro sm hsm d hd hform
    obtain ⟨bound, hcheck⟩ := hchecks sm hsm
    have hchannel := checkAll_ok hderived sm.1 (mem_metrics hsm)
    rw [if_pos hcheck.published] at hchannel
    exact checkDerived_cap (checkAll_ok hchannel d hd) hform
  refine ⟨hkeys.trans htotal.symm, htotal ▸ hfits, htables, hbound, ?_, hlabels, hbounds⟩
  intro sm hsm l hl
  obtain ⟨bound, hlabel⟩ := hbound sm hsm l hl
  exact length_lt_width hlabel
    (fun expose d hproperty => hcap sm hsm d (findProperty_derived hproperty))
    (hwidths sm hsm l hl)

end All

end SpinelEbpf.Record

import SpinelEbpf.Record.Bounds
import SpinelEbpf.Otlp.Recmetric

/-!
# Otlp — bounded metrics lose nothing

The calls that the generated intake makes for an accepted set of declarations are admissible
(`admissible_of_mem`): the labels project to one of the series that were counted, and fit the width
that they are stored with.  So there is always room for a new series, and each observation is
counted in the series with its labels (`metrics_lossless`).
-/

namespace SpinelEbpf.Otlp.Recmetric
open Function Record Tally

variable {V : Type} {arith : Arith V} {i : Nat}

/-! ### The calls of the intake -/

/-- A call that the tables are made for. -/
structure Admissible (t : Tables V) (keys : List (Nat × List String)) (call : Call V)
    (d : MetricDesc V) : Prop where
  desc : t.metrics[call.metric]? = some d
  arity : call.labelValues.length = d.labels.length
  labels : call.labelValues.length ≤ t.maxLabels
  key : (call.metric, projected d call) ∈ keys
  width : ∀ v ∈ projected d call, v.length < t.labelValMax
  value : d.isHist = true → call.hasValue = true
  bounds : d.bounds.length ≤ t.maxBounds

section Intake

variable {s : CcMetricSchema} {m : CcRecMetric} {c mi : Nat} {decls : Declarations V} {t : Tables V}

theorem getElem?_flatMap_metrics {ss : List CcMetricSchema} (hc : ss[c]? = some s)
    (hm : s.metrics[mi]? = some m) :
    (ss.flatMap fun s => s.metrics.map fun m => (s, m))[
      ((ss.take c).map fun s => s.metrics.length).sum + mi]? = some (s, m) := by
  induction ss generalizing c with
  | nil => cases hc
  | cons s' ss ih =>
      rw [List.flatMap_cons]
      cases c with
      | zero =>
          obtain rfl : s' = s := Option.some.inj hc
          obtain ⟨hlt, -⟩ := List.getElem?_eq_some_iff.mp hm
          rw [List.take_zero, List.map_nil, List.sum_nil, Nat.zero_add,
            List.getElem?_append_left (by rwa [List.length_map]), List.getElem?_map, hm]
          rfl
      | succ c =>
          rw [List.take_succ_cons, List.map_cons, List.sum_cons, Nat.add_assoc,
            List.getElem?_append_right (by rw [List.length_map]; omega), List.length_map,
            Nat.add_sub_cancel_left]
          exact ih hc

@[simp]
theorem observeCall_metric (arith : Arith V) (valmaps : List CcValueMap) (s : CcMetricSchema)
    (m : CcRecMetric) (i : Nat) (r : Rec) : (observeCall arith valmaps s m i r).metric = i := by
  unfold observeCall
  dsimp only
  split <;> rfl

/-- The number of a metric is its place in the table. -/
theorem observeRecord_ok {r : Rec} {call : Call V} (h : call ∈ observeRecord arith decls c r) :
    ∃ s m, decls.metrics[call.metric]? = some (s, m) ∧
      call = observeCall arith decls.valmaps s m call.metric r := by
  unfold observeRecord at h
  split at h
  · cases h
  · rename_i s hs
    obtain ⟨⟨m, mi⟩, hmem, rfl⟩ := List.mem_map.mp h
    have hm : s.metrics[mi]? = some m := List.mem_zipIdx_iff_getElem?.mp hmem
    refine ⟨s, m, ?_, by rw [observeCall_metric]⟩
    rw [observeCall_metric]
    exact getElem?_flatMap_metrics hs hm

/-- The numbers of a channel's metrics are below those of a later channel. -/
theorem metricBaseIndex_add_le {c' : Nat} (hs : decls.channels[c]? = some s) (hlt : c < c') :
    metricBaseIndex decls c + s.metrics.length ≤ metricBaseIndex decls c' := by
  obtain ⟨hc, rfl⟩ := List.getElem?_eq_some_iff.mp hs
  have hsub : ((decls.channels.take (c + 1)).map fun s => s.metrics.length).Sublist
      ((decls.channels.take c').map fun s => s.metrics.length) :=
    ((List.take_prefix_take_left hlt).sublist).map _
  refine le_trans (le_of_eq ?_) (hsub.sum_le_sum fun _ _ => Nat.zero_le _)
  rw [List.take_succ_eq_append_getElem hc, List.map_append, List.sum_append, metricBaseIndex]
  rfl

theorem filter_zipIdx {α : Type} {xs : List α} {k : Nat} {x : α} (h : xs[i]? = some x) :
    (xs.zipIdx k).filter (fun p => p.2 = k + i) = [(x, k + i)] := by
  induction xs generalizing i k with
  | nil => cases h
  | cons y ys ih =>
      cases i with
      | zero =>
          obtain rfl := Option.some.inj h
          have hrest : (ys.zipIdx (k + 1)).filter (fun p => p.2 = k) = [] := by
            refine List.filter_eq_nil_iff.mpr fun p hp hk => ?_
            have := List.le_snd_of_mem_zipIdx hp
            have := of_decide_eq_true hk
            omega
          simp [hrest]
      | succ i =>
          have hrest := ih (k := k + 1) h
          rw [Nat.add_right_comm, Nat.add_assoc] at hrest
          rw [List.zipIdx_cons, List.filter_cons, if_neg (by simp), hrest]

/-- A record makes one call for each metric of its channel, and none for another channel's. -/
theorem filter_observeRecord (arith : Arith V) (hs : decls.channels[c]? = some s)
    (hm : s.metrics[mi]? = some m) (x : Nat × Rec) :
    (observeRecord arith decls x.1 x.2).filter
        (fun call => call.metric = metricBaseIndex decls c + mi) =
      if x.1 = c then [observeCall arith decls.valmaps s m (metricBaseIndex decls c + mi) x.2]
      else [] := by
  obtain ⟨c', r⟩ := x
  dsimp only
  split
  case isTrue heq =>
    subst heq
    have hone := congrArg (List.map fun p => observeCall arith decls.valmaps s p.1
      (metricBaseIndex decls c' + p.2) r) (filter_zipIdx (k := 0) hm)
    simp only [Nat.zero_add, List.map_cons, List.map_nil] at hone
    rw [observeRecord, hs, ← hone, List.filter_map]
    simp [comp_def]
  case isFalse hne =>
    refine List.filter_eq_nil_iff.mpr fun call hcall heq => ?_
    have hmetric := of_decide_eq_true heq
    unfold observeRecord at hcall
    split at hcall
    · cases hcall
    · rename_i s' hs'
      obtain ⟨⟨m', mi'⟩, hmem, rfl⟩ := List.mem_map.mp hcall
      have hmi' := (List.getElem?_eq_some_iff.mp (List.mem_zipIdx_iff_getElem?.mp hmem)).1
      have hmi := (List.getElem?_eq_some_iff.mp hm).1
      rw [observeCall_metric] at hmetric
      dsimp only at hmi' hmetric
      rcases Nat.lt_or_gt_of_ne hne with hlt | hlt
      · have := metricBaseIndex_add_le hs' hlt
        omega
      · have := metricBaseIndex_add_le hs hlt
        omega

/-- **Run**: the calls for a metric are those for the records of its channel. -/
theorem filter_observeRecords (arith : Arith V) (hs : decls.channels[c]? = some s)
    (hm : s.metrics[mi]? = some m) (records : List (Nat × Rec)) :
    (records.flatMap fun (c, r) => observeRecord arith decls c r).filter
        (fun call => call.metric = metricBaseIndex decls c + mi) =
      (records.filter fun x => x.1 = c).map fun x =>
        observeCall arith decls.valmaps s m (metricBaseIndex decls c + mi) x.2 := by
  induction records with
  | nil => rfl
  | cons x records ih =>
      rw [List.flatMap_cons, List.filter_append, ih, filter_observeRecord arith hs hm,
        List.filter_cons]
      split <;> simp_all

/-- A projected label is one of the values of the label. -/
theorem project_mem {valmaps : List CcValueMap} {l : CcMetricLabel} {mid : String} {b : Nat}
    {ld : LabelDesc} (hb : labelBound valmaps s l mid = .ok b)
    (hld : labelDesc valmaps s mid l = .ok ld) (r : Rec) :
    project ld (renderLabel valmaps s l r) ∈ labelValues valmaps s l := by
  obtain ⟨b', -, hld⟩ := Checked.bind_ok hld
  rcases labelBound_ok hb with ⟨values, hvalues, -⟩ | ⟨hvalues, d, m, hclosed, -⟩
  · rw [hvalues] at hld
    obtain rfl := Except.ok.inj hld
    rw [labelValues, hvalues, project]
    dsimp only
    cases hfind : values.find? fun v => v = renderLabel valmaps s l r with
    | some v => exact List.mem_append_left _ (List.mem_of_find?_eq_some hfind)
    | none => exact List.mem_append_right _ (List.mem_singleton.mpr rfl)
  · rw [hvalues] at hld
    obtain rfl := Except.ok.inj hld
    exact hclosed.renderLabel_mem hvalues r

theorem zipWith_project_mem {valmaps : List CcValueMap} {mid : String} {ls : List CcMetricLabel}
    {lds : List LabelDesc}
    (hlds : List.Forall₂ (fun l ld => labelDesc valmaps s mid l = .ok ld) ls lds)
    (hb : ∀ l ∈ ls, ∃ b, labelBound valmaps s l mid = .ok b) (r : Rec) :
    List.Forall₂ (· ∈ ·) (List.zipWith project lds (ls.map fun l => renderLabel valmaps s l r))
      (ls.map (labelValues valmaps s)) := by
  induction hlds with
  | nil => exact .nil
  | cons hld _ ih =>
      obtain ⟨⟨b, hlabel⟩, hrest⟩ := List.forall_mem_cons.mp hb
      exact .cons (project_mem hlabel hld r) (ih hrest)

/-- The entry of a metric has its labels, and its boundaries are declared. -/
theorem metricDesc_ok {d : MetricDesc V} (h : metricDesc decls s m = .ok d) :
    metricIsHist m s = .ok d.isHist ∧
      List.Forall₂ (fun l ld => labelDesc decls.valmaps s m.id l = .ok ld) m.labels d.labels ∧
      (d.bounds = [] ∨ ∃ b ∈ decls.bounds, d.bounds = b.values) := by
  obtain ⟨hist, hhist, h⟩ := Checked.bind_ok h
  obtain ⟨bounds, hbounds, h⟩ := Checked.bind_ok h
  obtain ⟨labels, hlabels, h⟩ := Checked.bind_ok h
  obtain ⟨bound, -, h⟩ := Checked.bind_ok h
  cases h
  refine ⟨hhist, collect_ok hlabels, ?_⟩
  cases hist with
  | false => exact .inl (Except.ok.inj hbounds).symm
  | true =>
      rw [metricBounds, if_pos rfl] at hbounds
      unfold findBounds at hbounds
      split at hbounds
      · rename_i b hb
        exact .inr ⟨b, List.mem_of_find?_eq_some hb, (Except.ok.inj hbounds).symm⟩
      · cases hbounds

/-- The combinations that were counted are those of the labels' values. -/
theorem mem_seriesKeys {sm : CcMetricSchema × CcRecMetric} {val : List String}
    (hi : decls.metrics[i]? = some sm)
    (hval : List.Forall₂ (· ∈ ·) val (sm.2.labels.map (labelValues decls.valmaps sm.1))) :
    (i, val) ∈ seriesKeys decls :=
  List.mem_flatMap.mpr ⟨(sm, i), List.mem_zipIdx_iff_getElem?.mpr hi,
    List.mem_map.mpr ⟨val, List.mem_sections.mpr hval, rfl⟩⟩

/-- **The intake makes admissible calls only.** -/
theorem admissible_of_mem (hacc : Accepted decls t) {r : Rec} {call : Call V}
    (hcall : call ∈ observeRecord arith decls c r) :
    ∃ d, Admissible t (seriesKeys decls) call d := by
  obtain ⟨s, m, hi, heq⟩ := observeRecord_ok hcall
  have hsm : (s, m) ∈ decls.metrics := List.mem_of_getElem? hi
  obtain ⟨d, hd, hdesc⟩ := forall₂_getElem? hacc.tables hi
  obtain ⟨hhist, hlabels, hbounds⟩ := metricDesc_ok hdesc
  have hvalues : call.labelValues = m.labels.map fun l => renderLabel decls.valmaps s l r := by
    rw [heq]
    unfold observeCall
    dsimp only
    split <;> rfl
  have hproj : List.Forall₂ (· ∈ ·) (projected d call)
      (m.labels.map (labelValues decls.valmaps s)) := by
    rw [projected, hvalues]
    exact zipWith_project_mem hlabels (hacc.labels (s, m) hsm) r
  refine ⟨d, hd, ?_, ?_, mem_seriesKeys hi hproj, fun v hv => ?_, fun htrue => ?_, ?_⟩
  · rw [hvalues, List.length_map, hlabels.length_eq]
  · rw [hvalues, List.length_map]
    exact hacc.maxLabels (s, m) hsm
  · obtain ⟨vs, hvs, hmem⟩ := exists_of_forall₂ hproj hv
    obtain ⟨l, hl, rfl⟩ := List.mem_map.mp hvs
    exact hacc.widths (s, m) hsm l hl v hmem
  · rw [heq, observeCall, hhist, htrue]
  · rcases hbounds with hnil | ⟨b, hb, hvals⟩
    · rw [hnil]
      exact Nat.zero_le _
    · rw [hvals]
      exact hacc.maxBounds b hb

end Intake

/-! ### The table of series -/

/-- What a series is found by. -/
def Series.key (s : Series V) : Nat × List String := (s.metric, s.val)

/-- The sum of the buckets of a series. -/
def bucketSum (t : Tables V) (s : Series V) : UInt64 :=
  ((List.range (t.maxBounds + 1)).map s.buckets).sum

/-- The labels that a call is counted under. -/
def labelsOf (t : Tables V) (call : Call V) : List String :=
  (t.metrics[call.metric]?).elim [] fun d => projected d call

/-- The table after the calls of `log`. -/
structure Holds (t : Tables V) (keys : List (Nat × List String)) (st : State V)
    (log : List (Call V × Option Nat)) : Prop where
  warned : st.overflowWarned = false
  nodup : (st.series.map Series.key).Nodup
  known : ∀ s ∈ st.series, s.key ∈ keys
  arity : ∀ s ∈ st.series, ∀ d, t.metrics[s.metric]? = some d → s.val.length = d.labels.length
  buckets : ∀ s ∈ st.series, ∀ d, t.metrics[s.metric]? = some d → d.isHist = true →
    s.count = bucketSum t s
  placed : ∀ x ∈ log, ∃ i, x.2 = some i ∧
    (st.series.map Series.key)[i]? = some (x.1.metric, labelsOf t x.1)
  total : ∀ metric, Tally.total (fun s => s.metric = metric) Series.count st.series =
    UInt64.ofNat (log.countP fun x => x.1.metric = metric)

section Table

variable {t : Tables V} {keys : List (Nat × List String)} {st : State V}
  {log : List (Call V × Option Nat)} {call : Call V} {d : MetricDesc V}

theorem Admissible.length_projected (h : Admissible t keys call d) :
    (projected d call).length = d.labels.length := by
  rw [projected, List.length_zipWith, h.arity, min_self]

theorem Admissible.labelsOf_eq (h : Admissible t keys call d) :
    labelsOf t call = projected d call := by
  rw [labelsOf, h.desc, Option.elim_some]

/-- The comparison is that of the keys, where there are as many labels. -/
theorem hit_iff {metric : Nat} {proj : List String} {s : Series V}
    (hlen : s.metric = metric → s.val.length = proj.length) :
    s.hit metric proj = true ↔ s.key = (metric, proj) := by
  unfold Series.hit Series.key
  rw [Bool.and_eq_true, decide_eq_true_eq, List.all_eq_true, Prod.mk.injEq]
  refine and_congr_right fun hmetric => ⟨fun hall => ?_, ?_⟩
  · refine List.ext_getElem (hlen hmetric) fun k hk hk' => ?_
    have hdec := of_decide_eq_true (hall k (List.mem_range.mpr hk'))
    rwa [List.getD_eq_getElem _ _ hk, List.getD_eq_getElem _ _ hk'] at hdec
  · rintro rfl k -
    exact decide_eq_true rfl

/-- A step that keeps the table and only adds a series. -/
theorem Holds.push (h : Holds t keys st log) {s : Series V} (hnew : ∀ x ∈ st.series, x.key ≠ s.key)
    (hknown : s.key ∈ keys)
    (harity : ∀ d, t.metrics[s.metric]? = some d → s.val.length = d.labels.length)
    (hcount : s.count = 0) (hbuckets : s.buckets = fun _ => 0) :
    Holds t keys { st with series := st.series ++ [s] } log where
  warned := h.warned
  nodup := nodup_push h.nodup hnew
  known := List.forall_mem_append.mpr ⟨h.known, List.forall_mem_singleton.mpr hknown⟩
  arity := List.forall_mem_append.mpr ⟨h.arity, List.forall_mem_singleton.mpr harity⟩
  buckets := by
    refine List.forall_mem_append.mpr ⟨h.buckets, List.forall_mem_singleton.mpr fun d _ _ => ?_⟩
    rw [hcount, bucketSum, hbuckets, List.map_const', List.sum_replicate, smul_zero]
  placed := by
    intro x hx
    obtain ⟨i, hi, hkey⟩ := h.placed x hx
    refine ⟨i, hi, ?_⟩
    obtain ⟨hlt, -⟩ := List.getElem?_eq_some_iff.mp hkey
    rw [List.map_append, List.getElem?_append_left hlt, hkey]
  total := by
    intro metric
    rw [total_append, h.total metric, total_cons, hcount, ite_self]
    simp [Tally.total]

/-- **There is room**: `intern` finds a series or adds one, under the projected labels. -/
theorem Holds.intern (arith : Arith V) (h : Holds t keys st log) (hkeys : keys.length ≤ maxSeries)
    (hcall : Admissible t keys call d) :
    ∃ i st', Recmetric.intern arith t call.metric (projected d call) st = (some i, st') ∧
      Holds t keys st' log ∧
      (st'.series.map Series.key)[i]? = some (call.metric, projected d call) := by
  have hhit : ∀ s ∈ st.series, s.hit call.metric (projected d call) = true ↔
      s.key = (call.metric, projected d call) := by
    intro s hs
    refine hit_iff fun hmetric => ?_
    rw [hcall.length_projected]
    exact h.arity s hs d (by rw [hmetric, hcall.desc])
  unfold Recmetric.intern
  cases hfind : st.series.findIdx? (Series.hit call.metric (projected d call)) with
  | some i =>
      obtain ⟨hlt, hi, -⟩ := List.findIdx?_eq_some_iff_getElem.mp hfind
      refine ⟨i, st, rfl, h, ?_⟩
      rw [List.getElem?_map, List.getElem?_eq_getElem hlt, Option.map_some,
        (hhit _ (List.getElem_mem hlt)).mp hi]
  | none =>
      have hnew : ∀ s ∈ st.series, s.key ≠ (call.metric, projected d call) := by
        intro s hs hkey
        have hfalse := List.findIdx?_eq_none_iff.mp hfind s hs
        rw [(hhit s hs).mpr hkey] at hfalse
        cases hfalse
      -- the new series is one more of the keys
      have hcut : (projected d call).map (cut t.labelValMax) = projected d call := by
        calc (projected d call).map (cut t.labelValMax)
          _ = (projected d call).map id :=
              List.map_congr_left fun v hv => cut_eq_self (hcall.width v hv)
          _ = projected d call := List.map_id _
      rw [hcut]
      let s : Series V := ⟨call.metric, projected d call, 0, arith.zero, fun _ => 0⟩
      have hpush : Holds t keys { st with series := st.series ++ [s] } log := by
        refine h.push hnew hcall.key (fun d' hd' => ?_) rfl rfl
        obtain rfl : d = d' := Option.some.inj (hcall.desc.symm.trans hd')
        exact hcall.length_projected
      have hroom : (st.series ++ [s]).length ≤ maxSeries :=
        (length_le_of_keys hpush.nodup hpush.known).trans hkeys
      rw [List.length_append, List.length_singleton] at hroom
      dsimp only
      rw [if_neg (by omega)]
      refine ⟨_, _, rfl, hpush, ?_⟩
      rw [List.getElem?_map, List.getElem?_concat_length]
      rfl

@[simp]
theorem Series.add_key (arith : Arith V) (s : Series V) : (s.add arith d call).key = s.key := by
  unfold Series.add
  dsimp only
  split <;> rfl

@[simp]
theorem Series.add_count (arith : Arith V) (s : Series V) :
    (s.add arith d call).count = s.count + 1 := by
  unfold Series.add
  dsimp only
  split <;> rfl

theorem Series.add_metric (arith : Arith V) (s : Series V) :
    (s.add arith d call).metric = s.metric :=
  congrArg Prod.fst (s.add_key arith)

theorem Series.add_val (arith : Arith V) (s : Series V) : (s.add arith d call).val = s.val :=
  congrArg Prod.snd (s.add_key arith)

theorem sum_update {f : Nat → UInt64} {b n : Nat} (hb : b < n) :
    ((List.range n).map (update f b (f b + 1))).sum = ((List.range n).map f).sum + 1 := by
  induction n with
  | zero => omega
  | succ n ih =>
      rw [List.range_succ, List.map_append, List.sum_append, List.map_append, List.sum_append]
      rcases Nat.lt_succ_iff_lt_or_eq.mp hb with hlt | rfl
      · rw [ih hlt, List.map_singleton, List.map_singleton, update_of_ne hlt.ne',
          add_right_comm]
      · have hsame : (List.range b).map (update f b (f b + 1)) = (List.range b).map f := by
          refine List.map_congr_left fun k hk => update_of_ne ?_ _ _
          exact (List.mem_range.mp hk).ne
        rw [hsame, List.map_singleton, List.map_singleton, update_self, List.sum_singleton,
          List.sum_singleton, add_assoc]

/-- An observation of a histogram goes into one of its buckets. -/
theorem Admissible.bucketSum_add (hcall : Admissible t keys call d) (hhist : d.isHist = true)
    (s : Series V) :
    bucketSum t (s.add arith d call) = bucketSum t s + 1 := by
  have hlt : bucket arith d.bounds call.value < t.maxBounds + 1 :=
    Nat.lt_succ_of_le (List.findIdx_le_length.trans hcall.bounds)
  unfold Series.add bucketSum
  dsimp only
  rw [if_pos (by rw [hhist, hcall.value hhist]; rfl)]
  exact sum_update hlt

/-- One more observation of the series at `i`. -/
theorem Holds.count (arith : Arith V) (h : Holds t keys st log) (hcall : Admissible t keys call d)
    (hi : (st.series.map Series.key)[i]? = some (call.metric, projected d call)) :
    Holds t keys { st with series := st.series.modify i (Series.add arith d call) }
      (log ++ [(call, some i)]) := by
  have hkeys : (st.series.modify i (Series.add arith d call)).map Series.key =
      st.series.map Series.key := map_modify (fun s => s.add_key arith) i
  obtain ⟨s, hs, hkey⟩ : ∃ s, st.series[i]? = some s ∧ s.key = (call.metric, projected d call) := by
    rwa [List.getElem?_map, Option.map_eq_some_iff] at hi
  have hmetric : s.metric = call.metric := congrArg Prod.fst hkey
  refine ⟨h.warned, hkeys ▸ h.nodup, fun x hx => ?_, fun x hx d' hd' => ?_,
    fun x hx d' hd' hhist => ?_, fun x hx => ?_, fun metric => ?_⟩
  · rcases mem_modify hx with hx | ⟨y, hy, rfl⟩
    · exact h.known x hx
    · rw [Series.add_key]
      exact h.known y (List.mem_of_getElem? hy)
  · rcases mem_modify hx with hx | ⟨y, hy, rfl⟩
    · exact h.arity x hx d' hd'
    · rw [Series.add_metric] at hd'
      rw [Series.add_val]
      exact h.arity y (List.mem_of_getElem? hy) d' hd'
  · rcases mem_modify hx with hx | ⟨y, hy, rfl⟩
    · exact h.buckets x hx d' hd' hhist
    · obtain rfl : s = y := Option.some.inj (hs.symm.trans hy)
      rw [Series.add_metric, hmetric] at hd'
      obtain rfl : d = d' := Option.some.inj (hcall.desc.symm.trans hd')
      rw [Series.add_count, hcall.bucketSum_add hhist,
        h.buckets s (List.mem_of_getElem? hs) d (hmetric ▸ hcall.desc) hhist]
  · dsimp only
    rw [hkeys]
    rcases List.mem_append.mp hx with hx | hx
    · exact h.placed x hx
    · obtain rfl := List.mem_singleton.mp hx
      exact ⟨i, rfl, hi.trans (by rw [hcall.labelsOf_eq])⟩
  · dsimp only
    rw [total_modify (fun s => by rw [Series.add_metric]) (fun s => s.add_count arith) hs,
      h.total metric, List.countP_append, UInt64.ofNat_add, hmetric]
    by_cases heq : call.metric = metric <;> simp [heq]

/-- **Step**: an admissible call is counted. -/
theorem Holds.observe (arith : Arith V) (h : Holds t keys st log) (hkeys : keys.length ≤ maxSeries)
    (hcall : Admissible t keys call d) :
    ∃ i st', spnlRecmetricObserve arith t call st = (some i, st') ∧
      Holds t keys st' (log ++ [(call, some i)]) := by
  obtain ⟨i, st', hintern, hholds, hi⟩ := h.intern arith hkeys hcall
  refine ⟨i, _, ?_, hholds.count arith hcall hi⟩
  have harity := hcall.arity
  have hlabels := hcall.labels
  simp only [spnlRecmetricObserve, hcall.desc, hintern]
  exact if_neg (by omega)

/-- **Run**: so are any number of them. -/
theorem Holds.observeAll (arith : Arith V) (hkeys : keys.length ≤ maxSeries)
    {calls : List (Call V)} (hcalls : ∀ call ∈ calls, ∃ d, Admissible t keys call d)
    (h : Holds t keys st log) :
    Holds t keys (Recmetric.observeAll arith t st calls).1
      (log ++ (Recmetric.observeAll arith t st calls).2) := by
  induction calls generalizing st log with
  | nil =>
      rw [Recmetric.observeAll, List.append_nil]
      exact h
  | cons call calls ih =>
      obtain ⟨⟨d, hcall⟩, hrest⟩ := List.forall_mem_cons.mp hcalls
      obtain ⟨i, st', hobserve, hstep⟩ := h.observe arith hkeys hcall
      have hrun := ih hrest hstep
      rw [Recmetric.observeAll, hobserve]
      rwa [List.append_assoc] at hrun

theorem map_fst_observeAll (arith : Arith V) (t : Tables V) (st : State V) (calls : List (Call V)) :
    (Recmetric.observeAll arith t st calls).2.map Prod.fst = calls := by
  induction calls generalizing st with
  | nil => rfl
  | cons call calls ih =>
      rw [Recmetric.observeAll]
      exact congrArg (call :: ·) (ih _)

end Table

/-! ### Every run -/

/-- Nothing is lost: the records are all observed, and there is a place for every call.  `log` says
which. -/
structure Lossless (arith : Arith V) (decls : Declarations V) (t : Tables V)
    (records : List (Nat × Rec)) (st : State V) (log : List (Call V × Option Nat)) : Prop where
  /-- The observations of a metric are the records of its channel, with the labels and the value
  that each of them renders. -/
  observed : ∀ {c mi : Nat} {s : CcMetricSchema} {m : CcRecMetric}, decls.channels[c]? = some s →
    s.metrics[mi]? = some m →
    (log.map Prod.fst).filter (fun call => call.metric = metricBaseIndex decls c + mi) =
      (records.filter fun x => x.1 = c).map fun x =>
        observeCall arith decls.valmaps s m (metricBaseIndex decls c + mi) x.2
  /-- The series stay within the declared bound, and that within the array. -/
  bound : st.series.length ≤ t.totalSeriesBound
  capacity : t.totalSeriesBound ≤ maxSeries
  /-- `intern` did not fail. -/
  warned : st.overflowWarned = false
  interned : ∀ x ∈ log, x.2 ≠ none
  /-- The series of a call has the call's metric and projected labels. -/
  stored : ∀ x ∈ log, ∀ i, x.2 = some i → ∃ s, st.series[i]? = some s ∧
    s.metric = x.1.metric ∧ s.val = labelsOf t x.1
  same : ∀ x ∈ log, ∀ y ∈ log, x.2 = y.2 ↔
    x.1.metric = y.1.metric ∧ labelsOf t x.1 = labelsOf t y.1
  /-- The counts of a metric add up to the records of its channel. -/
  total : ∀ {c mi : Nat} {s : CcMetricSchema}, decls.channels[c]? = some s → mi < s.metrics.length →
    Tally.total (fun x => x.metric = metricBaseIndex decls c + mi) Series.count st.series =
      UInt64.ofNat (records.countP fun x => x.1 = c)
  /-- The buckets of a histogram's series add up to its count. -/
  buckets : ∀ s ∈ st.series, ∀ d, t.metrics[s.metric]? = some d → d.isHist = true →
    s.count = bucketSum t s

theorem Holds.start (t : Tables V) (keys : List (Nat × List String)) : Holds t keys .start [] where
  warned := rfl
  nodup := List.nodup_nil
  known := fun _ hs => absurd hs List.not_mem_nil
  arity := fun _ hs => absurd hs List.not_mem_nil
  buckets := fun _ hs => absurd hs List.not_mem_nil
  placed := fun _ hx => absurd hx List.not_mem_nil
  total := fun _ => rfl

/-- Distinct keys are at distinct places. -/
theorem Holds.same {t : Tables V} {keys : List (Nat × List String)} {st : State V}
    {log : List (Call V × Option Nat)} (h : Holds t keys st log) {x y : Call V × Option Nat}
    (hx : x ∈ log) (hy : y ∈ log) :
    x.2 = y.2 ↔ x.1.metric = y.1.metric ∧ labelsOf t x.1 = labelsOf t y.1 := by
  obtain ⟨i, hi, hkeyx⟩ := h.placed x hx
  obtain ⟨j, hj, hkeyy⟩ := h.placed y hy
  obtain ⟨hilt, hxkey⟩ := List.getElem?_eq_some_iff.mp hkeyx
  obtain ⟨hjlt, hykey⟩ := List.getElem?_eq_some_iff.mp hkeyy
  have hinj := @List.Nodup.getElem_inj_iff _ _ h.nodup i hilt j hjlt
  rw [hi, hj, Option.some.injEq, ← hinj, hxkey, hykey, Prod.mk.injEq]

theorem Holds.lossless {decls : Declarations V} {t : Tables V} {records : List (Nat × Rec)}
    {st : State V} {log : List (Call V × Option Nat)} (h : Holds t (seriesKeys decls) st log)
    (hacc : Accepted decls t)
    (hlog : log.map Prod.fst = records.flatMap fun (c, r) => observeRecord arith decls c r) :
    Lossless arith decls t records st log where
  observed := by
    intro c mi s m hs hm
    rw [hlog]
    exact filter_observeRecords arith hs hm records
  bound := hacc.keys ▸ length_le_of_keys h.nodup h.known
  capacity := hacc.fits
  warned := h.warned
  interned := by
    intro x hx hnone
    obtain ⟨i, hi, -⟩ := h.placed x hx
    cases hnone.symm.trans hi
  stored := by
    intro x hx i hi
    obtain ⟨j, hj, hkey⟩ := h.placed x hx
    obtain rfl : i = j := Option.some.inj (hi.symm.trans hj)
    rw [List.getElem?_map, Option.map_eq_some_iff] at hkey
    obtain ⟨s, hs, hkey⟩ := hkey
    exact ⟨s, hs, congrArg Prod.fst hkey, congrArg Prod.snd hkey⟩
  same := fun x hx y hy => h.same hx hy
  total := by
    intro c mi s hs hmi
    have hcalls := filter_observeRecords arith hs (List.getElem?_eq_getElem hmi) records
    have hlength := congrArg List.length hcalls
    rw [← hlog, List.length_map, List.filter_map, List.length_map, ← List.countP_eq_length_filter,
      ← List.countP_eq_length_filter] at hlength
    rw [h.total, ← hlength]
    rfl
  buckets := h.buckets

/-- **Bounded metrics lose nothing**: for all declarations that the generator accepts and all
records, whatever channel each is of. -/
theorem metrics_lossless {arith : Arith V} {intExprC : CcRecSchema → String → Except Stop Unit}
    {decls : Declarations V} {t : Tables V} (h : genRecordMirror arith intExprC decls = .ok t)
    (records : List (Nat × Rec)) :
    let calls := records.flatMap fun (c, r) => observeRecord arith decls c r
    Lossless arith decls t records (observeAll arith t .start calls).1
      (observeAll arith t .start calls).2 := by
  intro calls
  have hacc := genRecordMirror_ok h
  have hcalls : ∀ call ∈ calls, ∃ d, Admissible t (seriesKeys decls) call d := by
    intro call hcall
    obtain ⟨⟨c, r⟩, -, hmem⟩ := List.mem_flatMap.mp hcall
    exact admissible_of_mem hacc hmem
  have hholds := (Holds.start t (seriesKeys decls)).observeAll arith
    (hacc.keys.trans_le hacc.fits) hcalls
  exact hholds.lossless hacc (map_fst_observeAll arith t .start calls)

/-- A channel of connections that counts them by port. -/
def connChannel : CcMetricSchema where
  id := "conn"
  structSuffix := "conn"
  mapSuffix := "conn"
  fields := [⟨"port", "__u16", 0, 2, 2, some "int"⟩]
  requiredThrough := none
  producers := []
  derived := []
  metrics := [⟨"conns", "spinel.conns", some "counter", "1", none, none, none,
    [⟨"port", "port", "spinel", some ["80", "443"], some "other"⟩]⟩]
  typedConsumer := true

/-- Whole numbers as values. -/
def intArith : Arith Int where
  ofInt := id
  nsToS := (· / 1000000000)
  zero := 0
  add := (· + ·)
  le := fun a b => a ≤ b
  lt := fun a b => a < b

/-- A connection to a port. -/
def connTo (port : Int) : Rec := ⟨fun _ => port, fun _ => "", fun _ => "", fun _ => 0⟩

theorem metrics_lossless_conns :
    ∃ t, genRecordMirror intArith (fun _ _ => .ok ()) ⟨[connChannel], [], []⟩ = .ok t ∧
      t.totalSeriesBound = 3 ∧
      let records := [(0, connTo 80), (0, connTo 22), (0, connTo 80)]
      let calls := records.flatMap fun (c, r) =>
        observeRecord intArith ⟨[connChannel], [], []⟩ c r
      Lossless intArith ⟨[connChannel], [], []⟩ t records (observeAll intArith t .start calls).1
        (observeAll intArith t .start calls).2 := by
  have haccepted : ∃ t, genRecordMirror intArith (fun _ _ => .ok ()) ⟨[connChannel], [], []⟩ = .ok t ∧
      t.totalSeriesBound = 3 := ⟨_, rfl, rfl⟩
  obtain ⟨t, ht, hbound⟩ := haccepted
  exact ⟨t, ht, hbound, metrics_lossless ht _⟩

end SpinelEbpf.Otlp.Recmetric

import SpinelEbpf.Support.CString
import SpinelEbpf.Support.Grouping
import SpinelEbpf.Support.Tally

/-!
# Otlp — the series of HTTP durations

`http_dur_record` keeps a histogram of durations for every method, route and status.  It looks a
series up by the texts it is called with, but a series has 16 bytes for the method and 128 for the
route.  A longer text is cut when the series is made, the next call with it does not find the
series, and every such call makes another one.

With texts that fit, the table is the `Grouping` library at the key of a call (`run_eq`), and 64
series are enough for 64 keys.  `series_keyed_iff`: the series are one for each key with the number
of its calls, exactly if all texts fit (and no key has `2 ^ 64` calls, where the counter wraps).

Durations are any type with a comparison and a sum.
-/

namespace SpinelEbpf.Otlp.HttpDuration
open CString

/-- A C string, its bytes before the terminator. -/
abbrev Text := List UInt8

variable {D : Type}

/-! ### The function -/

/-- `http_dur_series_t`. -/
structure Series (D : Type) where
  method : Text
  route : Text
  hasRoute : Int32
  status : Int32
  count : UInt64
  sum : D
  buckets : List UInt64
  used : Bool

/-- A call of `http_dur_record`; a null pointer is `none`. -/
structure Call (D : Type) where
  method : Option Text
  routeOrTarget : Option Text
  hasRoute : Int32
  status : Int32
  durS : D

/-- `HTTP_DUR_MAX_SERIES`. -/
def maxSeries : Nat := 64

/-- The series so far, and the calls that were dropped with a warning. -/
structure State (D : Type) where
  series : List (Series D)
  dropped : List (Call D)

/-- `method ? method : ""`. -/
def Call.m (c : Call D) : Text := c.method.getD []

/-- `route_or_target ? route_or_target : ""`. -/
def Call.r (c : Call D) : Text := c.routeOrTarget.getD []

/-- The series of a call. -/
def Series.isFor (c : Call D) (s : Series D) : Bool :=
  s.used && s.status = c.status && s.method = c.m && s.route = c.r

section

variable [Zero D] [Add D] [LT D] [LE D] [DecidableLT D] [DecidableLE D]

/-- A series without durations, under these texts. -/
def Series.make (bounds : List D) (method route : Text) (c : Call D) : Series D where
  method := method
  route := route
  hasRoute := c.hasRoute
  status := c.status
  count := 0
  sum := 0
  buckets := List.replicate (bounds.length + 1) 0
  used := true

/-- A duration is added: `b` is the first bucket whose bound is not below it, or the last. -/
def Series.observe (bounds : List D) (c : Call D) (s : Series D) : Series D :=
  let dur := if c.durS < 0 then 0 else c.durS
  let b := bounds.findIdx fun bound => dur ≤ bound
  { s with buckets := s.buckets.modify b (· + 1), count := s.count + 1, sum := s.sum + dur }

/-- `http_dur_record`. -/
def httpDurRecord (bounds : List D) (st : State D) (c : Call D) : State D :=
  match st.series.findIdx? (Series.isFor c) with
  | some i => { st with series := st.series.modify i (Series.observe bounds c) }
  | none =>
      if st.series.length ≥ maxSeries then { st with dropped := st.dropped ++ [c] }
      else
        let s := Series.make bounds (snprintf 16 c.m) (snprintf 128 c.r) c
        { st with series := st.series ++ [Series.observe bounds c s] }

/-- A sequence of calls, from no series. -/
def run (bounds : List D) (calls : List (Call D)) : State D :=
  calls.foldl (httpDurRecord bounds) ⟨[], []⟩

end

/-! ### Keys -/

/-- What a series is kept for. -/
abbrev Key := Text × Text × Int32

def Series.key (s : Series D) : Key := (s.method, s.route, s.status)

def Call.key (c : Call D) : Key := (c.m, c.r, c.status)

/-- The texts of the call fit into a series. -/
def Call.Fits (c : Call D) : Prop := c.m.length < 16 ∧ c.r.length < 128

instance (c : Call D) : Decidable c.Fits := inferInstanceAs (Decidable (_ ∧ _))

/-- The calls with a key. -/
def callsOf (calls : List (Call D)) (k : Key) : List (Call D) := calls.filter fun c => c.key = k

/-- There is one series for each key that was called with, and its count is the number of the calls
and the sum of its buckets; no call was dropped. -/
structure KeyedBy (calls : List (Call D)) (st : State D) : Prop where
  kept : st.dropped = []
  nodup : (st.series.map Series.key).Nodup
  mem_iff : ∀ k, k ∈ st.series.map Series.key ↔ k ∈ calls.map Call.key
  count : ∀ s ∈ st.series, s.count.toNat = (callsOf calls s.key).length
  buckets : ∀ s ∈ st.series, (s.buckets.map UInt64.toNat).sum = s.count.toNat

theorem isFor_eq {c : Call D} {s : Series D} (hused : s.used = true) :
    s.isFor c = decide (s.key = c.key) := by
  rw [Series.isFor, hused, Bool.eq_iff_iff]
  simp [Series.key, Call.key]
  tauto

/-- A table with distinct keys has room for another of at most 64. -/
theorem room_of_keys {table : List (Series D)} {keys : List Key} {k : Key}
    (hnodup : (table.map Series.key).Nodup) (hsub : table.map Series.key ⊆ keys) (hk : k ∈ keys)
    (hfew : keys.length ≤ maxSeries) (hnew : k ∉ table.map Series.key) :
    table.length < maxSeries := by
  have hcons : (k :: table.map Series.key).Nodup := List.nodup_cons.mpr ⟨hnew, hnodup⟩
  have hle := (hcons.subperm (List.cons_subset.mpr ⟨hk, hsub⟩)).length_le
  rw [List.length_cons, List.length_map] at hle
  omega

/-- The number of calls with a key is the count of its series, which a counter holds. -/
theorem callsOf_lt {calls : List (Call D)} {st : State D} (hkeyed : KeyedBy calls st) (k : Key) :
    (callsOf calls k).length < 2 ^ 64 := by
  by_cases hk : k ∈ calls.map Call.key
  · obtain ⟨s, hs, rfl⟩ := List.mem_map.mp ((hkeyed.mem_iff k).mpr hk)
    rw [← hkeyed.count s hs]
    exact s.count.toNat_lt
  · have hnone : callsOf calls k = [] := by
      refine List.filter_eq_nil_iff.mpr fun c hc hkey => hk ?_
      exact List.mem_map.mpr ⟨c, hc, of_decide_eq_true hkey⟩
    rw [hnone]
    exact Nat.two_pow_pos 64

variable [Zero D] [Add D] [LT D] [LE D] [DecidableLT D] [DecidableLE D]

/-- The table as it would be with room for every text. -/
def seriesRule (bounds : List D) : Grouping.Rule (Series D) Key (Call D) where
  key := Series.key
  keyOf := Call.key
  new c := Series.make bounds c.m c.r c
  update := Series.observe bounds
  key_new _ := rfl
  key_update _ _ := rfl

/-! ### The counts of a series -/

section

variable {calls : List (Call D)} {bounds : List D}

/-- One more in a bucket is one more in all of them. -/
theorem sum_modify {buckets : List UInt64} {b : Nat} (hb : b < buckets.length)
    (hsum : (buckets.map UInt64.toNat).sum + 1 < 2 ^ 64) :
    ((buckets.modify b (· + 1)).map UInt64.toNat).sum = (buckets.map UInt64.toNat).sum + 1 := by
  induction buckets generalizing b with
  | nil => exact absurd hb (Nat.not_lt_zero _)
  | cons x xs ih =>
      rw [List.map_cons, List.sum_cons] at hsum ⊢
      cases b with
      | zero =>
          have hx : (x + 1).toNat = x.toNat + 1 := by
            rw [UInt64.toNat_add]
            exact Nat.mod_eq_of_lt (Nat.lt_of_le_of_lt (by simp) hsum)
          rw [List.modify_zero_cons, List.map_cons, List.sum_cons, hx]
          omega
      | succ b =>
          rw [List.modify_succ_cons, List.map_cons, List.sum_cons,
            ih (Nat.lt_of_succ_lt_succ hb) (by omega)]
          omega

theorem length_buckets_observe (c : Call D) (s : Series D) :
    (Series.observe bounds c s).buckets.length = s.buckets.length := List.length_modify _ _ _

/-- Calls on a series with as many buckets as there are bounds and one more. -/
theorem updates_count (calls : List (Call D)) {s : Series D}
    (hlen : s.buckets.length = bounds.length + 1)
    (hfew : s.count.toNat + calls.length < 2 ^ 64)
    (hsum : (s.buckets.map UInt64.toNat).sum = s.count.toNat) :
    let s' := (seriesRule bounds).updates calls s
    s'.count.toNat = s.count.toNat + calls.length ∧
      (s'.buckets.map UInt64.toNat).sum = s'.count.toNat := by
  induction calls generalizing s with
  | nil => exact ⟨rfl, hsum⟩
  | cons c calls ih =>
      rw [List.length_cons] at hfew
      have hcount : (Series.observe bounds c s).count.toNat = s.count.toNat + 1 := by
        show (s.count + 1).toNat = _
        rw [UInt64.toNat_add]
        exact Nat.mod_eq_of_lt (Nat.lt_of_le_of_lt (by simp) hfew)
      have hbucket : (bounds.findIdx fun bound => (if c.durS < 0 then 0 else c.durS) ≤ bound) <
          s.buckets.length := by
        rw [hlen]
        exact Nat.lt_succ_of_le List.findIdx_le_length
      have hsum₁ : ((Series.observe bounds c s).buckets.map UInt64.toNat).sum =
          (Series.observe bounds c s).count.toNat := by
        rw [hcount, ← hsum]
        exact sum_modify hbucket (by omega)
      obtain ⟨hcount', hsum'⟩ := ih ((length_buckets_observe c s).trans hlen) (by omega) hsum₁
      refine ⟨?_, hsum'⟩
      rw [hcount] at hcount'
      rw [List.length_cons]
      exact hcount'.trans (by omega)

theorem updates_used (calls : List (Call D)) (s : Series D) :
    ((seriesRule bounds).updates calls s).used = s.used := by
  induction calls generalizing s with
  | nil => rfl
  | cons c calls ih => exact ih (Series.observe bounds c s)

/-! ### With texts that fit -/

/-- **A call with texts that fit.**  It is the rule's event, as long as there is room. -/
theorem httpDurRecord_eq {table : List (Series D)} {c : Call D}
    (hgrouped : (seriesRule bounds).Grouped calls table) (hfits : c.Fits)
    (hroom : c.key ∉ table.map Series.key → table.length < maxSeries) :
    httpDurRecord bounds ⟨table, []⟩ c = ⟨(seriesRule bounds).record c table, []⟩ := by
  have hused : ∀ s ∈ table, s.used = true := by
    intro s hs
    obtain ⟨e, es, -, rfl⟩ := hgrouped.entry s hs
    exact updates_used _ _
  let R := seriesRule bounds
  have hfind : table.findIdx? (Series.isFor c) = table.findIdx? fun s => R.key s = R.keyOf c :=
    Grouping.findIdx?_congr fun s hs => isFor_eq (hused s hs)
  rw [httpDurRecord, Grouping.Rule.record_eq]
  dsimp only
  rw [hfind]
  cases hplace : table.findIdx? fun s => R.key s = R.keyOf c with
  | some i => rfl
  | none =>
      have hnew : c.key ∉ table.map Series.key := by
        intro hmem
        obtain ⟨s, hs, hkey⟩ := List.mem_map.mp hmem
        exact of_decide_eq_false (List.findIdx?_eq_none_iff.mp hplace s hs) hkey
      dsimp only
      rw [if_neg (by have := hroom hnew; omega), snprintf_of_lt hfits.1, snprintf_of_lt hfits.2]
      rfl

/-- **With texts that fit and at most 64 keys, the table is the rule's.** -/
theorem run_eq {keys : List Key} (hfew : keys.length ≤ maxSeries)
    (hcalls : ∀ c ∈ calls, c.Fits ∧ c.key ∈ keys) :
    run bounds calls = ⟨(seriesRule bounds).run calls [], []⟩ := by
  induction calls using List.reverseRecOn with
  | nil => rfl
  | append_singleton calls c ih =>
      have hbefore := fun c' hc' => hcalls c' (List.mem_append_left _ hc')
      obtain ⟨hfits, hkey⟩ := hcalls c (List.mem_append_right _ List.mem_cons_self)
      have hgrouped := (seriesRule bounds).grouped calls
      have hsub : ((seriesRule bounds).run calls []).map Series.key ⊆ keys := by
        intro k hk
        obtain ⟨c', hc', rfl⟩ := List.mem_map.mp ((hgrouped.mem_iff k).mp hk)
        exact (hbefore c' hc').2
      have hrun : (seriesRule bounds).run (calls ++ [c]) [] =
          (seriesRule bounds).record c ((seriesRule bounds).run calls []) := List.foldl_append
      rw [run, List.foldl_append, ← run, ih hbefore, hrun]
      exact httpDurRecord_eq hgrouped hfits (room_of_keys hgrouped.nodup hsub hkey hfew)

/-- The series are keyed. -/
theorem keyed_of_fits (hfew : (calls.map Call.key).dedup.length ≤ maxSeries)
    (hfits : ∀ c ∈ calls, c.Fits) (hcount : ∀ k, (callsOf calls k).length < 2 ^ 64) :
    KeyedBy calls (run bounds calls) := by
  have hgrouped := (seriesRule bounds).grouped calls
  rw [run_eq hfew fun c hc => ⟨hfits c hc, List.mem_dedup.mpr (List.mem_map_of_mem hc)⟩]
  have hentry : ∀ s ∈ (seriesRule bounds).run calls [],
      s.count.toNat = (callsOf calls s.key).length ∧
        (s.buckets.map UInt64.toNat).sum = s.count.toNat := by
    intro s hs
    obtain ⟨e, es, hown, heq⟩ := hgrouped.entry s hs
    have hcalls : callsOf calls s.key = e :: es := hown
    have hlt := hcount s.key
    rw [hcalls] at hlt ⊢
    have hnew : ((((seriesRule bounds).new e).buckets).map UInt64.toNat).sum =
        ((seriesRule bounds).new e).count.toNat := by
      show ((List.replicate (bounds.length + 1) (0 : UInt64)).map UInt64.toNat).sum = 0
      simp
    obtain ⟨hcount', hsum⟩ := updates_count (e :: es) (s := (seriesRule bounds).new e)
      List.length_replicate ((Nat.zero_add _).trans_lt hlt) hnew
    rw [← heq] at hcount' hsum
    exact ⟨hcount'.trans (Nat.zero_add _), hsum⟩
  exact ⟨rfl, hgrouped.nodup, hgrouped.mem_iff, fun s hs => (hentry s hs).1,
    fun s hs => (hentry s hs).2⟩

/-! ### With any texts -/

/-- A key that a series can have. -/
def Short (k : Key) : Prop := k.1.length < 16 ∧ k.2.1.length < 128

theorem short_record {st : State D} (c : Call D)
    (hshort : ∀ k ∈ st.series.map Series.key, Short k) :
    ∀ k ∈ (httpDurRecord bounds st c).series.map Series.key, Short k := by
  intro k hk
  rw [httpDurRecord] at hk
  split at hk
  · dsimp only at hk
    rw [Tally.map_modify fun s => show (Series.observe bounds c s).key = s.key from rfl] at hk
    exact hshort k hk
  · split at hk
    · exact hshort k hk
    · dsimp only at hk
      rw [List.map_append, List.mem_append] at hk
      rcases hk with hk | hk
      · exact hshort k hk
      · obtain rfl := List.mem_singleton.mp hk
        exact ⟨length_snprintf (by decide) _, length_snprintf (by decide) _⟩

/-- Every series of a run has a short key. -/
theorem short_run (calls : List (Call D)) :
    ∀ k ∈ (run bounds calls).series.map Series.key, Short k := by
  induction calls using List.reverseRecOn with
  | nil => intro k hk; exact absurd hk List.not_mem_nil
  | append_singleton calls c ih =>
      rw [run, List.foldl_append]
      exact short_record c ih

/-- **One series for each key.**  With at most 64 keys, the series of any calls are keyed by method,
route and status exactly if every method has less than 16 bytes and every route less than 128, and
the calls of each key can be counted. -/
theorem series_keyed_iff (bounds : List D) (calls : List (Call D))
    (hfew : (calls.map Call.key).dedup.length ≤ maxSeries) :
    KeyedBy calls (run bounds calls) ↔
      (∀ c ∈ calls, c.Fits) ∧ ∀ k, (callsOf calls k).length < 2 ^ 64 := by
  refine ⟨fun hkeyed => ⟨fun c hc => ?_, callsOf_lt hkeyed⟩, fun h => keyed_of_fits hfew h.1 h.2⟩
  exact short_run calls c.key ((hkeyed.mem_iff c.key).mpr (List.mem_map_of_mem hc))

end

/-- Two calls for `GET /` and one for `PUT /`, all answered with 200. -/
def threeCalls : List (Call Int) :=
  [⟨some [71, 69, 84], some [47], 1, 200, 3⟩, ⟨some [80, 85, 84], some [47], 1, 200, 40⟩,
    ⟨some [71, 69, 84], some [47], 1, 200, 5⟩]

theorem series_keyed_three :
    (threeCalls.map Call.key).dedup.length ≤ maxSeries ∧
      KeyedBy threeCalls (run [4, 10] threeCalls) :=
  have hfew : (threeCalls.map Call.key).dedup.length ≤ maxSeries := by decide
  have hshort : ∀ k, (callsOf threeCalls k).length < 2 ^ 64 := fun k =>
    (List.length_filter_le _ threeCalls).trans_lt (by decide)
  ⟨hfew, (series_keyed_iff [4, 10] threeCalls hfew).mpr ⟨by decide, hshort⟩⟩

/-- A method of 16 bytes, called with twice. -/
def longCalls : List (Call Int) :=
  List.replicate 2 ⟨some (List.replicate 16 65), some [47], 1, 200, 3⟩

/-- **A method that does not fit gets a series for every call.** -/
theorem long_method_two_series :
    (longCalls.map Call.key).dedup.length = 1 ∧
      (run [4, 10] longCalls).series.map Series.key =
        List.replicate 2 (List.replicate 15 65, [47], 200) ∧
      ¬ KeyedBy longCalls (run [4, 10] longCalls) := by
  have hkeys : (run [4, 10] longCalls).series.map Series.key =
      List.replicate 2 (List.replicate 15 65, [47], 200) := by decide
  refine ⟨by decide, hkeys, fun hkeyed => ?_⟩
  have hnodup := hkeyed.nodup
  rw [hkeys] at hnodup
  exact absurd hnodup (by decide)

end SpinelEbpf.Otlp.HttpDuration

import SpinelEbpf.Otlp.Traces

/-!
# Otlp — which exit closes which enter

Every stack of the assembly holds the outermost 64 open calls of its thread (`Thread`), each with
what it was given at its enter; a deeper call was given nothing.  So an exit is paired with the call
it closes as long as that call is at depth 64 or less, and with the one at depth 64 if it is deeper:
the spans of a stream are those of its calls exactly if no call ends below depth 64
(`assemble_pairs_iff`).
-/

namespace SpinelEbpf.Otlp.Traces
open Function Otlp

/-! ### Open calls -/

variable {i : Nat}

section Open

variable {tid : UInt64} {e : SpanEvent} {past : List SpanEvent}

theorem openCalls_of_ne (h : e.tid ≠ tid) : openCalls tid (e :: past) = openCalls tid past := by
  rw [openCalls, if_pos h]

theorem openCalls_enter (htid : e.tid = tid) (h : e.kind = 0) :
    openCalls tid (e :: past) = past.length :: openCalls tid past := by
  rw [openCalls, if_neg (not_not.mpr htid), if_pos h]

theorem openCalls_exit (htid : e.tid = tid) (h : e.kind ≠ 0) :
    openCalls tid (e :: past) = (openCalls tid past).tail := by
  rw [openCalls, if_neg (not_not.mpr htid), if_neg h]

/-- An open call was entered before. -/
theorem lt_of_mem_openCalls (h : i ∈ openCalls tid past) : i < past.length := by
  induction past with
  | nil => cases h
  | cons e past ih =>
      rw [List.length_cons]
      by_cases htid : e.tid = tid
      · by_cases hkind : e.kind = 0
        · rw [openCalls_enter htid hkind] at h
          rcases List.mem_cons.mp h with rfl | h
          · exact Nat.lt_succ_self _
          · exact Nat.lt_succ_of_lt (ih h)
        · rw [openCalls_exit htid hkind] at h
          exact Nat.lt_succ_of_lt (ih (List.mem_of_mem_tail h))
      · rw [openCalls_of_ne htid] at h
        exact Nat.lt_succ_of_lt (ih h)

/-- A thread without events has no open calls. -/
theorem openCalls_eq_nil (h : ∀ e ∈ past, e.tid ≠ tid) : openCalls tid past = [] := by
  induction past with
  | nil => rfl
  | cons e past ih =>
      rw [openCalls_of_ne (h e List.mem_cons_self)]
      exact ih fun e he => h e (List.mem_cons_of_mem _ he)

end Open

/-! ### What a stack holds -/

section

variable {slots : Nat → TidSlot} {off : Int64} {seed : UInt64} {maxOut : Nat}
  {past : List SpanEvent} {e : SpanEvent} {s : TidSlot} {tid : UInt64} {around : List Nat}
  {call : Nat} {c : Call}

theorem given_of_lt (h : i < past.length) :
    given slots off seed maxOut (e :: past) i = given slots off seed maxOut past i := by
  rw [given, if_neg h.ne]

theorem given_length :
    given slots off seed maxOut (e :: past) past.length =
      (assembled slots off seed maxOut past).pending off e := by
  rw [given, if_pos rfl]

theorem event_of_lt (h : i < past.length) :
    (e :: past).reverse[i]? = past.reverse[i]? := by
  rw [List.reverse_cons, List.getElem?_append_left (by simpa using h)]

theorem event_length : (e :: past).reverse[past.length]? = some e := by
  rw [List.reverse_cons, ← List.length_reverse, List.getElem?_concat_length]

/-- Entry `d` of a stack is the call entered at `i`. -/
structure Entry (slots : Nat → TidSlot) (off : Int64) (seed : UInt64) (maxOut : Nat)
    (past : List SpanEvent) (s : TidSlot) (d i : Nat) : Prop where
  given : given slots off seed maxOut past i = some (s.stack d)
  event : ∃ e, past.reverse[i]? = some e ∧ (s.stack d).idx = e.idx ∧
    (s.stack d).start = unixNs off e
  trace : (s.stack d).traceId = s.traceId
  hasParent : (s.stack d).hasParent = decide (0 < d)
  parent : 0 < d → (s.stack d).parentSpanId = (s.stack (d - 1)).spanId

/-- Another event does not change an entry. -/
theorem Entry.cons {d : Nat} (h : Entry slots off seed maxOut past s d i) (hi : i < past.length) :
    Entry slots off seed maxOut (e :: past) s d i := by
  refine ⟨(given_of_lt hi).trans h.given, ?_, h.trace, h.hasParent, h.parent⟩
  rw [event_of_lt hi]
  exact h.event

/-- A stack holds the outermost calls of its thread. -/
structure Thread (slots : Nat → TidSlot) (off : Int64) (seed : UInt64) (maxOut : Nat)
    (past : List SpanEvent) (s : TidSlot) : Prop where
  depth : s.depth = min (openCalls s.tid past).length maxDepth
  entry : ∀ d i, d < s.depth → (openCalls s.tid past).reverse[d]? = some i →
    Entry slots off seed maxOut past s d i
  deep : ∀ d i, maxDepth ≤ d → (openCalls s.tid past).reverse[d]? = some i →
    given slots off seed maxOut past i = none

namespace Thread

theorem lt_of_getElem? {d : Nat} (h : (openCalls tid past).reverse[d]? = some i) :
    i < past.length :=
  lt_of_mem_openCalls (List.mem_reverse.mp (List.mem_of_getElem? h))

/-- An event that opens no call leaves those that stay open where they were. -/
theorem keep (h : Thread slots off seed maxOut past s) {depth : Nat}
    (hdepth : depth = min (openCalls s.tid (e :: past)).length maxDepth) (hle : depth ≤ s.depth)
    (hopen : ∀ d i : Nat, (openCalls s.tid (e :: past)).reverse[d]? = some i →
      (openCalls s.tid past).reverse[d]? = some i) :
    Thread slots off seed maxOut (e :: past) { s with depth := depth } := by
  refine ⟨hdepth, fun d i hd hi => ?_, fun d i hd hi => ?_⟩
  · have hold := hopen d i hi
    obtain ⟨hgiven, hevent, htrace, hparent, hlink⟩ := h.entry d i (hd.trans_le hle) hold
    exact Entry.cons ⟨hgiven, hevent, htrace, hparent, hlink⟩ (lt_of_getElem? hold)
  · have hold := hopen d i hi
    exact (given_of_lt (lt_of_getElem? hold)).trans (h.deep d i hd hold)

/-- An event of another thread. -/
theorem other (h : Thread slots off seed maxOut past s) (hne : e.tid ≠ s.tid) :
    Thread slots off seed maxOut (e :: past) s := by
  have hopen : openCalls s.tid (e :: past) = openCalls s.tid past := openCalls_of_ne hne
  exact h.keep (by rw [hopen]; exact h.depth) le_rfl fun d i hi => by rwa [hopen] at hi

/-- An exit without a call. -/
theorem unmatched (h : Thread slots off seed maxOut past s) (htid : e.tid = s.tid)
    (hkind : e.kind ≠ 0) (hnone : openCalls s.tid past = []) :
    Thread slots off seed maxOut (e :: past) s := by
  have hopen : openCalls s.tid (e :: past) = openCalls s.tid past := by
    rw [openCalls_exit htid hkind, hnone, List.tail_nil]
  exact h.keep (by rw [hopen]; exact h.depth) le_rfl fun d i hi => by rwa [hopen] at hi

/-- An exit that ends a call the stack holds. -/
theorem pop (h : Thread slots off seed maxOut past s) (htid : e.tid = s.tid) (hkind : e.kind ≠ 0)
    (hcalls : openCalls s.tid past = call :: around) (hdeep : around.length < maxDepth) :
    Thread slots off seed maxOut (e :: past) { s with depth := s.depth - 1 } := by
  have hopen : openCalls s.tid (e :: past) = around := by
    rw [openCalls_exit htid hkind, hcalls, List.tail_cons]
  have hdepth : s.depth = around.length + 1 := by
    rw [h.depth, hcalls, List.length_cons]
    omega
  refine h.keep ?_ (Nat.sub_le _ _) fun d i hi => ?_
  · rw [hopen, hdepth]
    omega
  · rw [hopen] at hi
    obtain ⟨hd, -⟩ := List.getElem?_eq_some_iff.mp hi
    rwa [hcalls, List.reverse_cons, List.getElem?_append_left hd]

/-- An enter that finds the stack full. -/
theorem full (h : Thread slots off seed maxOut past s) (htid : e.tid = s.tid) (hkind : e.kind = 0)
    (hfull : maxDepth ≤ s.depth)
    (hnone : (assembled slots off seed maxOut past).pending off e = none) :
    Thread slots off seed maxOut (e :: past) s := by
  have hdepth := h.depth
  have hlen : s.depth ≤ (openCalls s.tid past).reverse.length := by
    rw [List.length_reverse]
    omega
  have hopen : (openCalls s.tid (e :: past)).reverse =
      (openCalls s.tid past).reverse ++ [past.length] := by
    rw [openCalls_enter htid hkind, List.reverse_cons]
  refine ⟨?_, fun d i hd hi => ?_, fun d i hd hi => ?_⟩
  · rw [openCalls_enter htid hkind, List.length_cons]
    omega
  · rw [hopen, List.getElem?_append_left (hd.trans_le hlen)] at hi
    exact (h.entry d i hd hi).cons (lt_of_getElem? hi)
  · rw [hopen, List.getElem?_append] at hi
    split at hi
    · exact (given_of_lt (lt_of_getElem? hi)).trans (h.deep d i hd hi)
    · obtain rfl : past.length = i := List.mem_singleton.mp (List.mem_of_getElem? hi) |>.symm
      exact given_length.trans hnone

/-- An enter that finds room on the stack. -/
theorem push (h : Thread slots off seed maxOut past s) (htid : e.tid = s.tid) (hkind : e.kind = 0)
    (hroom : s.depth < maxDepth) {rng : UInt64} {p : Pending} (hp : (s.pend off e rng).1 = p)
    (hgiven : (assembled slots off seed maxOut past).pending off e = some p) :
    Thread slots off seed maxOut (e :: past)
      { s with traceId := p.traceId, stack := update s.stack s.depth p
               depth := s.depth + 1 } := by
  have hdepth : s.depth = (openCalls s.tid past).length := by
    have := h.depth
    omega
  have hopen : (openCalls s.tid (e :: past)).reverse =
      (openCalls s.tid past).reverse ++ [past.length] := by
    rw [openCalls_enter htid hkind, List.reverse_cons]
  have hstack : ∀ d, d < s.depth → update s.stack s.depth p d = s.stack d :=
    fun d hd => update_of_ne hd.ne _ _
  refine ⟨?_, fun d i hd hi => ?_, fun d i hd hi => ?_⟩
  · show s.depth + 1 = _
    rw [openCalls_enter htid hkind, List.length_cons, ← hdepth]
    omega
  · rw [hopen] at hi
    rcases Nat.lt_succ_iff_lt_or_eq.mp hd with hd | rfl
    · -- a call that was open before: an outer call exists, so the trace is the old one
      rw [List.getElem?_append_left (by rwa [List.length_reverse, ← hdepth])] at hi
      obtain ⟨hg, hevent, htrace, hparent, hlink⟩ := (h.entry d i hd hi).cons (e := e)
        (lt_of_getElem? hi)
      have hsame : p.traceId = s.traceId := by
        rw [← hp]
        show (s.trace rng).1 = _
        rw [TidSlot.trace, if_neg (by omega)]
      refine ⟨?_, ?_, ?_, ?_, ?_⟩ <;> dsimp only <;> rw [hstack d hd]
      · exact hg
      · exact hevent
      · exact htrace.trans hsame.symm
      · exact hparent
      · rw [hstack (d - 1) (by omega)]
        exact hlink
    · -- the new call
      rw [hdepth, ← @List.length_reverse _ (openCalls s.tid past),
        List.getElem?_concat_length] at hi
      obtain rfl := Option.some.inj hi
      refine ⟨?_, ?_, ?_, ?_, ?_⟩ <;> dsimp only <;> rw [update_self]
      · exact given_length.trans hgiven
      · exact ⟨e, event_length, by rw [← hp]; rfl, by rw [← hp]; rfl⟩
      · rw [← hp]
        rfl
      · intro hpos
        rw [hstack _ (by omega), ← hp]
        exact if_pos (decide_eq_true hpos)
  · rw [hopen, List.getElem?_append] at hi
    split at hi
    · exact (given_of_lt (lt_of_getElem? hi)).trans (h.deep d i hd hi)
    · obtain ⟨hlt, -⟩ := List.getElem?_eq_some_iff.mp hi
      rw [List.length_reverse, List.length_singleton] at hlt
      omega

/-- **The top of a stack is the innermost call**: what an exit emits is the span of the call it
ends. -/
theorem close (h : Thread slots off seed maxOut past s)
    (hcalls : openCalls s.tid past = call :: around) (hdeep : around.length < maxDepth) :
    spanOf (given slots off seed maxOut (e :: past)) off (e :: past).reverse
      ⟨call, around, past.length⟩ = some ((s.stack (s.depth - 1)).close off e) := by
  have hdepth : s.depth = around.length + 1 := by
    rw [h.depth, hcalls, List.length_cons]
    omega
  have hcall : (openCalls s.tid past).reverse[around.length]? = some call := by
    rw [hcalls, List.reverse_cons, ← @List.length_reverse _ around, List.getElem?_concat_length]
  obtain ⟨hgiven, ⟨enter, henter, hidx, hstart⟩, htrace, hparent, hlink⟩ :=
    (h.entry around.length call (by omega) hcall).cons (e := e) (lt_of_getElem? hcall)
  rw [hdepth, Nat.add_sub_cancel, Pending.close, hidx, hstart, hparent]
  simp only [spanOf, henter, event_length, hgiven, Option.bind_eq_bind, Option.bind_some]
  cases around with
  | nil => rfl
  | cons parent around =>
      have houter : (openCalls s.tid past).reverse[around.length]? = some parent := by
        rw [hcalls, List.reverse_cons, List.reverse_cons, List.append_assoc,
          ← @List.length_reverse _ around, List.getElem?_append_right le_rfl, Nat.sub_self]
        rfl
      obtain ⟨hgiven', -, htrace', -, -⟩ :=
        (h.entry around.length parent (by rw [hdepth, List.length_cons]; omega) houter).cons
          (e := e) (lt_of_getElem? houter)
      have hpos : 0 < (parent :: around).length := Nat.succ_pos _
      dsimp only
      rw [hgiven', hlink hpos, htrace, ← htrace', decide_eq_true hpos]
      rfl

end Thread

/-! ### The slots -/

/-- The threads of a stream. -/
def tids (events : List SpanEvent) : Finset UInt64 := (events.map SpanEvent.tid).toFinset

theorem mem_tids {events : List SpanEvent} :
    tid ∈ tids events ↔ ∃ e ∈ events, e.tid = tid := by
  rw [tids, List.mem_toFinset, List.mem_map]

theorem tids_cons : tids (e :: past) = insert e.tid (tids past) := by
  rw [tids, List.map_cons, List.toFinset_cons, tids]

/-- One slot for each thread of `known`, each as it should be after `past`. -/
structure Slots (slots : Nat → TidSlot) (off : Int64) (seed : UInt64) (maxOut : Nat)
    (known : Finset UInt64) (past : List SpanEvent) (table : Nat → TidSlot) (n : Nat) :
    Prop where
  distinct : ∀ j < n, ∀ k < n, (table j).tid = (table k).tid → j = k
  known : ∀ tid, tid ∈ known ↔ ∃ k < n, (table k).tid = tid
  thread : ∀ k < n, Thread slots off seed maxOut past (table k)

namespace Slots

variable {known : Finset UInt64} {table : Nat → TidSlot} {n k : Nat}

theorem card (h : Slots slots off seed maxOut known past table n) : known.card = n := by
  have himage : known = (Finset.range n).image fun k => (table k).tid := by
    ext tid
    simp only [h.known, Finset.mem_image, Finset.mem_range]
  rw [himage, Finset.card_image_of_injOn, Finset.card_range]
  intro j hj k hk hjk
  exact h.distinct j (by simpa using hj) k (by simpa using hk) hjk

/-- A slot for a thread that has none. -/
theorem add (h : Slots slots off seed maxOut (tids past) past table n) (htid : tid ∉ tids past) :
    Slots slots off seed maxOut (insert tid (tids past)) past
      (update table n { table n with tid := tid, depth := 0 }) (n + 1) := by
  have hold : ∀ j < n, update table n { table n with tid := tid, depth := 0 } j =
      table j := fun j hj => update_of_ne hj.ne _ _
  have hfresh : ∀ j < n, (table j).tid ≠ tid := fun j hj e => htid ((h.known tid).mpr ⟨j, hj, e⟩)
  refine ⟨fun j hj k hk hjk => ?_, fun t => ?_, fun k hk => ?_⟩
  · rcases Nat.lt_succ_iff_lt_or_eq.mp hj with hj | rfl <;>
      rcases Nat.lt_succ_iff_lt_or_eq.mp hk with hk | rfl
    · rw [hold j hj, hold k hk] at hjk
      exact h.distinct j hj k hk hjk
    · rw [hold j hj, update_self] at hjk
      exact absurd hjk (hfresh j hj)
    · rw [hold k hk, update_self] at hjk
      exact absurd hjk.symm (hfresh k hk)
    · rfl
  · rw [Finset.mem_insert, h.known]
    constructor
    · rintro (rfl | ⟨j, hj, rfl⟩)
      · exact ⟨n, Nat.lt_succ_self n, by rw [update_self]⟩
      · exact ⟨j, Nat.lt_succ_of_lt hj, by rw [hold j hj]⟩
    · rintro ⟨j, hj, rfl⟩
      rcases Nat.lt_succ_iff_lt_or_eq.mp hj with hj | rfl
      · exact .inr ⟨j, hj, by rw [hold j hj]⟩
      · exact .inl (by rw [update_self])
  · rcases Nat.lt_succ_iff_lt_or_eq.mp hk with hk | rfl
    · rw [hold k hk]
      exact h.thread k hk
    · have hnone : openCalls tid past = [] :=
        openCalls_eq_nil fun e he hte => htid (mem_tids.mpr ⟨e, he, hte⟩)
      rw [update_self]
      refine ⟨?_, fun d i hd => absurd hd (Nat.not_lt_zero d), fun d i _ hi => ?_⟩
      · rw [hnone]
        rfl
      · rw [hnone] at hi
        cases hi

/-- An event touches the slot of its thread only. -/
theorem touch (h : Slots slots off seed maxOut known past table n) (hk : k < n)
    (htid : (table k).tid = e.tid) (hs : Thread slots off seed maxOut (e :: past) s)
    (hstid : s.tid = e.tid) :
    Slots slots off seed maxOut known (e :: past) (update table k s) n := by
  have hsame : ∀ j, (update table k s j).tid = (table j).tid := by
    intro j
    by_cases hj : j = k
    · subst hj
      rw [update_self, hstid, htid]
    · rw [update_of_ne hj]
  refine ⟨fun i hi j hj => ?_, fun t => ?_, fun j hj => ?_⟩
  · rw [hsame, hsame]
    exact h.distinct i hi j hj
  · simp only [hsame]
    exact h.known t
  · by_cases hjk : j = k
    · subst hjk
      rwa [update_self]
    · rw [update_of_ne hjk]
      refine (h.thread j hj).other fun heq => hjk (h.distinct j hj k hk ?_)
      rw [htid, heq]

end Slots

/-- **An event finds the slot of its thread**, or there is room for a new one. -/
theorem locate_spec {st : Assembly}
    (h : Slots slots off seed maxOut (tids past) past st.slots st.nslots)
    (hcard : (tids (e :: past)).card ≤ maxTids) :
    ∃ k st', st.locate e.tid = some (k, st') ∧ st'.rng = st.rng ∧ st'.out = st.out ∧
      k < st'.nslots ∧ (st'.slots k).tid = e.tid ∧
      Slots slots off seed maxOut (tids (e :: past)) past st'.slots st'.nslots := by
  unfold Assembly.locate
  cases hfind : (List.range st.nslots).find? fun k => (st.slots k).tid = e.tid with
  | some k =>
      have hk : k < st.nslots := List.mem_range.mp (List.mem_of_find?_eq_some hfind)
      have htid : (st.slots k).tid = e.tid := by simpa using List.find?_some hfind
      refine ⟨k, st, rfl, rfl, rfl, hk, htid, ?_⟩
      rwa [tids_cons, Finset.insert_eq_of_mem ((h.known e.tid).mpr ⟨k, hk, htid⟩)]
  | none =>
      have htid : e.tid ∉ tids past := by
        rw [h.known]
        rintro ⟨k, hk, hkt⟩
        have := List.find?_eq_none.mp hfind k (List.mem_range.mpr hk)
        exact this (decide_eq_true hkt)
      have hroom : ¬ st.nslots ≥ maxTids := by
        rw [tids_cons, Finset.card_insert_of_notMem htid, h.card] at hcard
        omega
      refine ⟨st.nslots, _, if_neg hroom, rfl, rfl, Nat.lt_succ_self _, ?_, ?_⟩
      · dsimp only
        rw [update_self]
      · rw [tids_cons]
        exact h.add htid

/-! ### Whole streams -/

/-- No call ends below depth 64. -/
def Shallow (past : List SpanEvent) : Prop := ∀ c ∈ closedCalls past, c.around.length < maxDepth

theorem shallow_cons :
    Shallow (e :: past) ↔ Shallow past ∧ ∀ c ∈ closes e past, c.around.length < maxDepth := by
  simp only [Shallow, closedCalls, List.forall_mem_append]

theorem closes_enter (hkind : e.kind = 0) : closes e past = [] := by rw [closes, if_pos hkind]

theorem closes_exit (hkind : e.kind ≠ 0) (hcalls : openCalls e.tid past = call :: around) :
    closes e past = [⟨call, around, past.length⟩] := by
  rw [closes, if_neg hkind, hcalls]

theorem closes_unmatched (hkind : e.kind ≠ 0) (hcalls : openCalls e.tid past = []) :
    closes e past = [] := by
  rw [closes, if_neg hkind, hcalls]

theorem of_mem_closes (h : c ∈ closes e past) :
    openCalls e.tid past = c.enter :: c.around ∧ c.exit = past.length := by
  unfold closes at h
  split at h
  · cases h
  · split at h
    · cases h
    · rename_i hcalls
      obtain rfl := List.mem_singleton.mp h
      exact ⟨hcalls, rfl⟩

/-- What is left after one event: the slots are as they should be, and the span of the call that the
event ends is added to the output. -/
theorem step_spec {st : Assembly} (hst : st = assembled slots off seed maxOut past)
    (h : Slots slots off seed maxOut (tids past) past st.slots st.nslots)
    (hcard : (tids (e :: past)).card ≤ maxTids)
    (hdeep : ∀ c ∈ closes e past, c.around.length < maxDepth) :
    Slots slots off seed maxOut (tids (e :: past)) (e :: past) (st.step off maxOut e).slots
        (st.step off maxOut e).nslots ∧
      (st.out.length + (closes e past).length ≤ maxOut →
        (st.step off maxOut e).out.map some = st.out.map some ++
          (closes e past).map (spanOf (given slots off seed maxOut (e :: past)) off
            (e :: past).reverse)) := by
  obtain ⟨k, st', hloc, hrng, hout, hk, htid, hslots⟩ := locate_spec h hcard
  have hthread := hslots.thread k hk
  have hpending : (assembled slots off seed maxOut past).pending off e =
      if e.kind = 0 ∧ (st'.slots k).depth < maxDepth then
        some ((st'.slots k).pend off e st'.rng).1 else none := by
    rw [← hst, Assembly.pending, hloc]
  rw [Assembly.step, hloc]
  dsimp only
  by_cases hkind : e.kind = 0
  · rw [if_pos hkind, closes_enter hkind, Assembly.enter]
    by_cases hfull : (st'.slots k).depth ≥ maxDepth
    · have hsame := hthread.full htid.symm hkind hfull (by
        rw [hpending, if_neg fun h => Nat.not_lt.mpr hfull h.2])
      rw [if_pos hfull, ← hout]
      refine ⟨?_, fun _ => (List.append_nil _).symm⟩
      rw [← update_eq_self k st'.slots]
      exact hslots.touch hk htid hsame htid
    · have hpush := hthread.push htid.symm hkind (Nat.not_le.mp hfull) rfl (by
        rw [hpending, if_pos ⟨hkind, Nat.not_le.mp hfull⟩])
      rw [if_neg hfull, ← hout]
      exact ⟨hslots.touch hk htid hpush htid, fun _ => (List.append_nil _).symm⟩
  · rw [if_neg hkind, Assembly.exit]
    cases hcalls : openCalls e.tid past with
    | nil =>
        have hempty : openCalls (st'.slots k).tid past = [] := by rw [htid, hcalls]
        have hzero : (st'.slots k).depth = 0 := by rw [hthread.depth, hempty]; rfl
        rw [if_pos hzero, closes_unmatched hkind hcalls, ← hout]
        refine ⟨?_, fun _ => (List.append_nil _).symm⟩
        rw [← update_eq_self k st'.slots]
        exact hslots.touch hk htid (hthread.unmatched htid.symm hkind hempty) htid
    | cons call around =>
        have hopen : openCalls (st'.slots k).tid past = call :: around := by rw [htid, hcalls]
        rw [closes_exit hkind hcalls] at hdeep ⊢
        have hshallow : around.length < maxDepth := hdeep _ List.mem_cons_self
        have hpos : ¬ (st'.slots k).depth = 0 := by
          rw [hthread.depth, hopen, List.length_cons]
          omega
        have hpop := hslots.touch hk htid (hthread.pop htid.symm hkind hopen hshallow) htid
        rw [if_neg hpos]
        dsimp only
        refine ⟨by split <;> exact hpop, fun hroom => ?_⟩
        rw [hout, if_neg (by simpa using hroom), List.map_append, List.map_cons, List.map_nil,
          List.map_cons, List.map_nil, hthread.close hopen hshallow]

theorem card_tids_of_cons (h : (tids (e :: past)).card ≤ maxTids) : (tids past).card ≤ maxTids := by
  rw [tids_cons] at h
  exact (Finset.card_le_card (Finset.subset_insert _ _)).trans h

/-- The slots after a stream whose calls are shallow. -/
theorem slots_assembled (hcard : (tids past).card ≤ maxTids) (hshallow : Shallow past) :
    Slots slots off seed maxOut (tids past) past (assembled slots off seed maxOut past).slots
      (assembled slots off seed maxOut past).nslots := by
  induction past with
  | nil =>
      refine ⟨fun j hj => absurd hj (Nat.not_lt_zero j), fun tid => ?_,
        fun k hk => absurd hk (Nat.not_lt_zero k)⟩
      rw [mem_tids]
      exact ⟨fun ⟨_, he, _⟩ => absurd he List.not_mem_nil,
        fun ⟨k, hk, _⟩ => absurd hk (Nat.not_lt_zero k)⟩
  | cons e past ih =>
      obtain ⟨hpast, hdeep⟩ := shallow_cons.mp hshallow
      exact (step_spec rfl (ih (card_tids_of_cons hcard) hpast) hcard hdeep).1

/-- The positions of a call that is over are positions of the stream. -/
theorem lt_of_mem_closedCalls (h : c ∈ closedCalls past) :
    c.enter < past.length ∧ c.exit < past.length ∧ ∀ i ∈ c.around, i < past.length := by
  induction past with
  | nil => cases h
  | cons e past ih =>
      rw [List.length_cons]
      rcases List.mem_append.mp h with h | h
      · obtain ⟨henter, hexit, haround⟩ := ih h
        exact ⟨by omega, by omega, fun i hi => Nat.lt_succ_of_lt (haround i hi)⟩
      · obtain ⟨hcalls, hexit⟩ := of_mem_closes h
        have hlt : ∀ i ∈ c.enter :: c.around, i < past.length + 1 := fun i hi =>
          Nat.lt_succ_of_lt (lt_of_mem_openCalls (hcalls ▸ hi))
        exact ⟨hlt c.enter List.mem_cons_self, by omega,
          fun i hi => hlt i (List.mem_cons_of_mem _ hi)⟩

/-- Another event does not change the span of a call that is over. -/
theorem spanOf_cons (h : c ∈ closedCalls past) :
    spanOf (given slots off seed maxOut (e :: past)) off (e :: past).reverse c =
      spanOf (given slots off seed maxOut past) off past.reverse c := by
  obtain ⟨enter, around, exit⟩ := c
  obtain ⟨henter, hexit, haround⟩ := lt_of_mem_closedCalls h
  simp only [spanOf, event_of_lt henter, event_of_lt hexit, given_of_lt henter]
  cases around with
  | nil => rfl
  | cons parent _ => simp only [given_of_lt (haround parent List.mem_cons_self)]

/-- The spans after a stream whose calls are shallow are those of the calls that are over. -/
theorem out_assembled (hcard : (tids past).card ≤ maxTids) (hshallow : Shallow past)
    (hroom : (closedCalls past).length ≤ maxOut) :
    (assembled slots off seed maxOut past).out.map some =
      (closedCalls past).map (spanOf (given slots off seed maxOut past) off past.reverse) := by
  induction past with
  | nil => rfl
  | cons e past ih =>
      obtain ⟨hpast, hdeep⟩ := shallow_cons.mp hshallow
      have hcard' := card_tids_of_cons hcard
      rw [closedCalls, List.length_append] at hroom
      have hprev := ih hcard' hpast (by omega)
      have hlen : (assembled slots off seed maxOut past).out.length = (closedCalls past).length := by
        simpa using congrArg List.length hprev
      rw [assembled, (step_spec rfl (slots_assembled hcard' hpast) hcard hdeep).2 (by omega),
        hprev, closedCalls, List.map_append]
      congr 1
      exact List.map_congr_left fun c hc => (spanOf_cons hc).symm

/-- A stream with a call that ends below depth 64 has one that was given nothing. -/
theorem exists_not_given (hcard : (tids past).card ≤ maxTids) (hdeep : ¬ Shallow past) :
    ∃ c ∈ closedCalls past, given slots off seed maxOut past c.enter = none := by
  induction past with
  | nil => exact absurd (fun c hc => nomatch hc) hdeep
  | cons e past ih =>
      have hcard' := card_tids_of_cons hcard
      by_cases hpast : Shallow past
      · have hlast : ∃ c ∈ closes e past, maxDepth ≤ c.around.length := by
          by_contra hnone
          push Not at hnone
          exact hdeep (shallow_cons.mpr ⟨hpast, hnone⟩)
        obtain ⟨c, hc, hlong⟩ := hlast
        obtain ⟨hcalls, -⟩ := of_mem_closes hc
        have hslots : Slots slots off seed maxOut _ _ _ _ := slots_assembled hcard' hpast
        have hknown : e.tid ∈ tids past := by
          by_contra hnot
          rw [openCalls_eq_nil fun e' he' h => hnot (mem_tids.mpr ⟨e', he', h⟩)] at hcalls
          cases hcalls
        obtain ⟨k, hk, htid⟩ := (hslots.known e.tid).mp hknown
        have hnone := (hslots.thread k hk).deep c.around.length c.enter hlong (by
          rw [htid, hcalls, List.reverse_cons, ← @List.length_reverse _ c.around,
            List.getElem?_concat_length])
        have hlt : c.enter < past.length := lt_of_mem_openCalls (hcalls ▸ List.mem_cons_self)
        exact ⟨c, List.mem_append_right _ hc, (given_of_lt hlt).trans hnone⟩
      · obtain ⟨c, hc, hnone⟩ := ih hcard' hpast
        exact ⟨c, List.mem_append_left _ hc, (given_of_lt (lt_of_mem_closedCalls hc).1).trans hnone⟩

theorem foldl_step (ev : List SpanEvent) :
    ev.foldl (Assembly.step off maxOut) (.start slots seed) =
      assembled slots off seed maxOut ev.reverse := by
  induction ev using List.reverseRecOn with
  | nil => rfl
  | append_singleton ev e ih =>
      rw [List.foldl_append, ih, List.reverse_append]
      rfl

end

/-- **Spans are paired with their calls up to depth 64**: with at most 64 threads and room for every
span, whatever an earlier call left in the slots, the spans of a stream are those of its calls that
are over, in the order of their exits, exactly if each of these calls has fewer than 64 around
it. -/
theorem assemble_pairs_iff (slots : Nat → TidSlot) (ev : List SpanEvent) (off : Int64)
    (seed : UInt64) (maxOut : Nat) (htids : (ev.map SpanEvent.tid).toFinset.card ≤ maxTids)
    (hroom : (closedCalls ev.reverse).length ≤ maxOut) :
    (otlpTracesAssemble slots ev off seed maxOut).map some =
        (closedCalls ev.reverse).map (spanOf (given slots off seed maxOut ev.reverse) off ev) ↔
      ∀ c ∈ closedCalls ev.reverse, c.around.length < maxDepth := by
  have hcard : (tids ev.reverse).card ≤ maxTids := by
    rwa [tids, List.map_reverse, List.toFinset_reverse]
  rw [otlpTracesAssemble, foldl_step]
  constructor
  · intro heq
    by_contra hdeep
    obtain ⟨c, hc, hnone⟩ : ∃ c ∈ closedCalls ev.reverse,
        given slots off seed maxOut ev.reverse c.enter = none := exists_not_given hcard hdeep
    have hmem : spanOf (given slots off seed maxOut ev.reverse) off ev c ∈
        (assembled slots off seed maxOut ev.reverse).out.map some :=
      heq ▸ List.mem_map_of_mem hc
    obtain ⟨o, -, ho⟩ := List.mem_map.mp hmem
    simp [spanOf, hnone] at ho
  · intro hshallow
    have hout := @out_assembled slots off seed maxOut ev.reverse hcard hshallow hroom
    rwa [List.reverse_reverse] at hout

/-- Slots that hold zeros. -/
def zeroSlots : Nat → TidSlot := fun _ =>
  ⟨0, 0, List.replicate 16 0, fun _ =>
    ⟨List.replicate 8 0, List.replicate 8 0, false, List.replicate 16 0, 0, 0⟩⟩

/-- Two threads, one with a nested call. -/
def twoThreads : List SpanEvent :=
  [⟨0, 1, 10, 7⟩, ⟨0, 2, 20, 8⟩, ⟨0, 3, 30, 7⟩, ⟨1, 3, 40, 7⟩, ⟨1, 2, 50, 8⟩, ⟨1, 1, 60, 7⟩]

theorem assemble_pairs_twoThreads :
    closedCalls twoThreads.reverse = [⟨2, [0], 3⟩, ⟨1, [], 4⟩, ⟨0, [], 5⟩] ∧
      (otlpTracesAssemble zeroSlots twoThreads 0 1 3).map some =
        (closedCalls twoThreads.reverse).map
          (spanOf (given zeroSlots 0 1 3 twoThreads.reverse) 0 twoThreads) :=
  ⟨by decide, (assemble_pairs_iff zeroSlots twoThreads 0 1 3 (by decide) (by decide)).mpr
    (by decide)⟩

/-- `n` calls in one another: method `i` is entered at `i` and left at `2 * n - 1 - i`. -/
def nested (n : Nat) : List SpanEvent :=
  (List.range n).map (fun i => ⟨0, Int32.ofNat i, UInt64.ofNat i, 1⟩) ++
    (List.range n).map fun i => ⟨1, Int32.ofNat (n - 1 - i), UInt64.ofNat (n + i), 1⟩

/-- **A call at depth 65 is not paired with its enter**: the first exit is that of method 64, and
the span has method 63 and its start. -/
theorem deep_exit_mispaired :
    (closedCalls (nested 65).reverse).head?.map (·.enter) = some 64 ∧
      (nested 65)[64]? = some ⟨0, 64, 64, 1⟩ ∧
      (otlpTracesAssemble zeroSlots (nested 65) 0 1 65).head?.map
        (fun o => (o.methodIdx, o.startUnixNs)) = some (63, 63) := by
  decide +kernel

end SpinelEbpf.Otlp.Traces

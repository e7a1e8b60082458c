import SpinelEbpf.Otlp.SpanIds

/-!
# Otlp — threads do not touch each other's spans

The threads of a stream share the slot table, the generator and the output array.  A thread's calls
are nevertheless its own: in the ledger they are those of a run on the thread's events alone, with
the numbers renamed (`Own`, `run_own`), since an event of another thread only moves the generator
on.  Two streams with the same events of a thread therefore give it the same spans up to a renaming
of ids (`threads_apart`).
-/

namespace SpinelEbpf.Otlp.Traces
open Function Otlp

/-! ### What a thread gets -/

/-- The spans that an event adds to the output. -/
def Assembly.emitted (off : Int64) (maxOut : Nat) (st : Assembly) (e : SpanEvent) : List Span :=
  (st.step off maxOut e).out.drop st.out.length

/-- The spans that the events of thread `t` add. -/
def spansFrom (t : UInt64) (off : Int64) (maxOut : Nat) : Assembly → List SpanEvent → List Span
  | _, []       => []
  | st, e :: ev =>
      (if e.tid = t then st.emitted off maxOut e else []) ++
        spansFrom t off maxOut (st.step off maxOut e) ev

/-- The spans emitted for thread `t`. -/
def threadSpans (t : UInt64) (slots : Nat → TidSlot) (ev : List SpanEvent) (off : Int64)
    (seed : UInt64) (maxOut : Nat) : List Span :=
  spansFrom t off maxOut (.start slots seed) ev

/-- The span id that each event of thread `t` gives to the call it opens. -/
def idsFrom (t : UInt64) (off : Int64) (maxOut : Nat) :
    Assembly → List SpanEvent → List (Option (List UInt8))
  | _, []       => []
  | st, e :: ev =>
      (if e.tid = t then [(st.pending off e).map Pending.spanId] else []) ++
        idsFrom t off maxOut (st.step off maxOut e) ev

/-- The ids of the calls of thread `t`, one entry for each of its events. -/
def threadIds (t : UInt64) (slots : Nat → TidSlot) (ev : List SpanEvent) (off : Int64)
    (seed : UInt64) (maxOut : Nat) : List (Option (List UInt8)) :=
  idsFrom t off maxOut (.start slots seed) ev

/-- A span with other ids. -/
def Span.rename (ids traces : List UInt8 → List UInt8) (s : Span) : Span :=
  { s with traceId := traces s.traceId
           spanId := ids s.spanId
           parentSpanId := if s.hasParent then ids s.parentSpanId else s.parentSpanId }

/-! ### What it gets in the ledger -/

namespace Ledger

/-- The number of the call that an event opens. -/
def given (off : Int64) (L : Ledger) (e : SpanEvent) : Option Nat :=
  match L.enrol e.tid with
  | none   => none
  | some L =>
      if e.kind = 0 ∧ (L.stack e.tid).length < maxDepth then
        some (opened off e (L.stack e.tid) L.next).number
      else none

/-- The call that an event ends. -/
def closed (off : Int64) (L : Ledger) (e : SpanEvent) : List DoneCall :=
  match L.enrol e.tid with
  | none   => []
  | some L =>
      if e.kind = 0 then []
      else
        match L.stack e.tid with
        | []     => []
        | o :: _ => [⟨o, e.tid, unixNs off e⟩]

def callsFrom (t : UInt64) (off : Int64) : Ledger → List SpanEvent → List DoneCall
  | _, []      => []
  | L, e :: ev => (if e.tid = t then L.closed off e else []) ++ callsFrom t off (L.step off e) ev

def numbersFrom (t : UInt64) (off : Int64) : Ledger → List SpanEvent → List (Option Nat)
  | _, []      => []
  | L, e :: ev => (if e.tid = t then [L.given off e] else []) ++ numbersFrom t off (L.step off e) ev

theorem step_out (off : Int64) (L : Ledger) (e : SpanEvent) :
    (L.step off e).out = L.out ++ L.closed off e := by
  unfold step closed
  cases ha : L.enrol e.tid with
  | none => exact (List.append_nil _).symm
  | some L' =>
      obtain ⟨-, -, hout⟩ := enrol_next ha
      rw [← hout]
      dsimp only
      by_cases hkind : e.kind = 0
      · rw [if_pos hkind, if_pos hkind, List.append_nil, enter]
        dsimp only
        split <;> rfl
      · rw [if_neg hkind, if_neg hkind, exit]
        cases L'.stack e.tid with
        | nil => exact (List.append_nil _).symm
        | cons o rest => rfl

theorem out_prefix (off : Int64) (L : Ledger) (ev : List SpanEvent) :
    L.out <+: (ev.foldl (step off) L).out := by
  induction ev generalizing L with
  | nil => exact List.prefix_refl _
  | cons e ev ih =>
      refine List.IsPrefix.trans ?_ (ih (L.step off e))
      rw [step_out]
      exact List.prefix_append _ _

end Ledger

section

variable {seed t : UInt64} {maxOut : Nat} {off : Int64} {st : Assembly} {L M : Ledger}
  {e : SpanEvent} {ev : List SpanEvent}

/-- The ids of the loop are those of the ledger. -/
theorem pending_given (h : Represents seed maxOut st L) (off : Int64) (e : SpanEvent) :
    (st.pending off e).map Pending.spanId = (L.given off e).map (idOf seed) := by
  unfold Assembly.pending Ledger.given
  rcases locate_enrol h e.tid with ⟨hloc, henrol⟩ | ⟨k, st', L', hloc, henrol, h', hk⟩
  · rw [hloc, henrol]
    rfl
  rw [hloc, henrol]
  dsimp only
  have hkeeps := (h'.slot k e.tid hk).2
  rw [hkeeps.depth, h'.rng]
  split
  · exact congrArg some (hkeeps.pend off e L'.next).1.spanId
  · rfl

theorem idsFrom_eq (h : Represents seed maxOut st L) :
    idsFrom t off maxOut st ev = (L.numbersFrom t off ev).map (Option.map (idOf seed)) := by
  induction ev generalizing st L with
  | nil => rfl
  | cons e ev ih =>
      rw [idsFrom, Ledger.numbersFrom, List.map_append, ih (step_represents h off e),
        pending_given h off e]
      split <;> rfl

/-- While there is room, the spans of the loop are the calls of the ledger. -/
theorem spansFrom_eq (h : Represents seed maxOut st L)
    (hroom : (ev.foldl (Ledger.step off) L).out.length ≤ maxOut) :
    spansFrom t off maxOut st ev =
      (L.callsFrom t off ev).map (DoneCall.span (idOf seed) (traceOf seed)) := by
  induction ev generalizing st L with
  | nil => rfl
  | cons e ev ih =>
      have h' := step_represents h off e
      have hlen : (L.step off e).out.length ≤ maxOut :=
        (Ledger.out_prefix off (L.step off e) ev).length_le.trans hroom
      have hemitted : st.emitted off maxOut e =
          (L.closed off e).map (DoneCall.span (idOf seed) (traceOf seed)) := by
        have hle : L.out.length ≤ maxOut := by
          rw [Ledger.step_out, List.length_append] at hlen
          omega
        rw [Assembly.emitted, h'.out, h.out, List.take_of_length_le hlen,
          List.take_of_length_le hle, List.length_map, Ledger.step_out, List.map_append,
          List.drop_append_of_le_length (by rw [List.length_map]), ← List.length_map,
          List.drop_length, List.nil_append]
      rw [spansFrom, Ledger.callsFrom, List.map_append, ih h' hroom, hemitted]
      split <;> rfl

/-! ### Room for every thread -/

/-- There is a slot for every thread that is known or to come. -/
structure Ledger.Admits (L : Ledger) (ev : List SpanEvent) : Prop where
  nodup : L.threads.Nodup
  card : (L.threads ++ ev.map SpanEvent.tid).toFinset.card ≤ maxTids

theorem Ledger.enter_threads (off : Int64) (e : SpanEvent) (L : Ledger) :
    (L.enter off e).threads = L.threads := by
  unfold Ledger.enter
  dsimp only
  split <;> rfl

theorem Ledger.exit_threads (off : Int64) (e : SpanEvent) (L : Ledger) :
    (L.exit off e).threads = L.threads := by
  unfold Ledger.exit
  split <;> rfl

theorem Ledger.Admits.enrol (h : L.Admits (e :: ev)) :
    ∃ L', L.enrol e.tid = some L' ∧ L'.threads.Nodup ∧
      (L'.threads ++ ev.map SpanEvent.tid).toFinset ⊆
        (L.threads ++ (e :: ev).map SpanEvent.tid).toFinset := by
  unfold Ledger.enrol
  by_cases hknown : e.tid ∈ L.threads
  · rw [if_pos hknown]
    refine ⟨L, rfl, h.nodup, fun x hx => ?_⟩
    simp only [List.toFinset_append, Finset.mem_union, List.mem_toFinset, List.map_cons,
      List.mem_cons] at hx ⊢
    exact hx.imp_right .inr
  · have hroom : ¬ L.threads.length ≥ maxTids := by
      have hsub : insert e.tid L.threads.toFinset ⊆
          (L.threads ++ (e :: ev).map SpanEvent.tid).toFinset := by
        intro x hx
        simp only [List.toFinset_append, Finset.mem_union, List.mem_toFinset, List.map_cons,
          List.mem_cons, Finset.mem_insert] at hx ⊢
        exact hx.symm.imp_right .inl
      have hcard := (Finset.card_le_card hsub).trans h.card
      rw [Finset.card_insert_of_notMem (fun hmem => hknown (List.mem_toFinset.mp hmem)),
        List.toFinset_card_of_nodup h.nodup] at hcard
      omega
    rw [if_neg hknown, if_neg hroom]
    refine ⟨_, rfl, ?_, fun x hx => ?_⟩
    · exact List.nodup_append.mpr ⟨h.nodup, List.nodup_singleton _, fun a ha b hb => by
        rintro rfl
        exact hknown (List.mem_singleton.mp hb ▸ ha)⟩
    · simp only [List.toFinset_append, Finset.mem_union, List.mem_toFinset, List.map_cons,
        List.mem_cons, List.not_mem_nil, or_false] at hx ⊢
      rw [← or_assoc]
      exact hx

theorem Ledger.Admits.step (h : L.Admits (e :: ev)) (off : Int64) :
    (∃ L', L.enrol e.tid = some L') ∧ (L.step off e).Admits ev := by
  obtain ⟨L', henrol, hnodup, hsub⟩ := h.enrol
  have hthreads : (L.step off e).threads = L'.threads := by
    rw [Ledger.step, henrol]
    dsimp only
    split
    · exact Ledger.enter_threads off e L'
    · exact Ledger.exit_threads off e L'
  refine ⟨⟨L', henrol⟩, ?_, ?_⟩
  · rw [hthreads]
    exact hnodup
  · rw [hthreads]
    exact (Finset.card_le_card hsub).trans h.card

/-! ### A thread's own run -/

/-- A call with other numbers. -/
def OpenCall.rename (ν : Nat → Nat) (o : OpenCall) : OpenCall :=
  { o with number := ν o.number, parent := o.parent.map ν, root := ν o.root }

def DoneCall.rename (ν : Nat → Nat) (c : DoneCall) : DoneCall :=
  { c with toOpenCall := c.toOpenCall.rename ν }

theorem OpenCall.rename_congr {ν ν' : Nat → Nat} {n : Nat} {o : OpenCall} (ho : o.Below n)
    (h : ∀ i, i < n → ν' i = ν i) : o.rename ν' = o.rename ν := by
  have hparent : o.parent.map ν' = o.parent.map ν := by
    cases hp : o.parent with
    | none => rfl
    | some p => exact congrArg some (h p (ho.parent p hp))
  rw [OpenCall.rename, h _ ho.number, hparent, h _ (Nat.lt_of_succ_lt ho.root)]
  rfl

theorem DoneCall.span_rename (id trace : Nat → List UInt8) (ν : Nat → Nat) (c : DoneCall) :
    DoneCall.span id trace (c.rename ν) = DoneCall.span (id ∘ ν) (trace ∘ ν) c := by
  unfold DoneCall.span DoneCall.rename OpenCall.rename
  dsimp only
  rw [Option.map_map, Option.isSome_map]
  rfl

/-- `M` is the ledger of thread `t` alone: its open calls are those of `L` by other numbers, in the
same order. -/
structure Own (t : UInt64) (ν : Nat → Nat) (L M : Ledger) : Prop where
  mono : ∀ a b, a < b → b < M.next → ν a < ν b
  below : ∀ n, n < M.next → ν n < L.next
  stack : L.stack t = (M.stack t).map (OpenCall.rename ν)

theorem next_le_step (off : Int64) (L : Ledger) (e : SpanEvent) : L.next ≤ (L.step off e).next := by
  unfold Ledger.step
  cases ha : L.enrol e.tid with
  | none => exact le_refl _
  | some L' =>
      rw [← (enrol_next ha).1]
      dsimp only
      split
      · unfold Ledger.enter
        dsimp only
        split
        · exact le_refl _
        · exact Nat.le_succ_of_le (opened_number off e (L'.stack e.tid) L'.next).1
      · exact (exit_next L').ge

/-- An event of another thread. -/
theorem step_other (h : e.tid ≠ t) (off : Int64) (L : Ledger) :
    (L.step off e).stack t = L.stack t := by
  unfold Ledger.step
  cases ha : L.enrol e.tid with
  | none => rfl
  | some L' =>
      rw [← (enrol_next ha).2.1]
      dsimp only
      split
      · unfold Ledger.enter
        dsimp only
        split
        · rfl
        · exact update_of_ne h.symm _ _
      · unfold Ledger.exit
        split
        · rfl
        · exact update_of_ne h.symm _ _

theorem Own.other {ν : Nat → Nat} (h : Own t ν L M) (hne : e.tid ≠ t) (off : Int64) :
    Own t ν (L.step off e) M :=
  ⟨h.mono, fun n hn => (h.below n hn).trans_le (next_le_step off L e),
    (step_other hne off L).trans h.stack⟩

/-- The renaming, continued with the numbers drawn next. -/
def continued (ν : Nat → Nat) (m l : Nat) : Nat → Nat :=
  fun i => if i < m then ν i else l + (i - m)

theorem continued_of_lt {ν : Nat → Nat} {m l i : Nat} (h : i < m) : continued ν m l i = ν i :=
  if_pos h

theorem continued_add (ν : Nat → Nat) (m l j : Nat) : continued ν m l (m + j) = l + j := by
  rw [continued, if_neg (by omega), Nat.add_sub_cancel_left]

/-- An enter of the thread opens the same call in both ledgers. -/
theorem opened_rename (off : Int64) (e : SpanEvent) (ν : Nat → Nat) {calls : List OpenCall}
    {m : Nat} (hbelow : ∀ o ∈ calls, o.Below m) (l : Nat) :
    Ledger.opened off e (calls.map (OpenCall.rename ν)) l =
      (Ledger.opened off e calls m).rename (continued ν m l) := by
  cases calls with
  | nil =>
      unfold Ledger.opened OpenCall.rename
      dsimp only [List.map_nil]
      rw [continued_add, show continued ν m l m = l from continued_add ν m l 0]
      rfl
  | cons o calls =>
      have ho := hbelow o List.mem_cons_self
      rw [List.map_cons]
      unfold Ledger.opened OpenCall.rename
      dsimp only
      rw [show continued ν m l m = l from continued_add ν m l 0, Option.map_some,
        continued_of_lt ho.number, continued_of_lt (Nat.lt_of_succ_lt ho.root)]

section

variable {ν : Nat → Nat}

theorem Own.enrol (h : Own t ν L M) {L' M' : Ledger} {x y : UInt64} (hL : L.enrol x = some L')
    (hM : M.enrol y = some M') : Own t ν L' M' := by
  obtain ⟨hnextL, hstackL, -⟩ := enrol_next hL
  obtain ⟨hnextM, hstackM, -⟩ := enrol_next hM
  refine ⟨?_, ?_, ?_⟩
  · rw [hnextM]
    exact h.mono
  · rw [hnextL, hnextM]
    exact h.below
  · rw [hstackL, hstackM]
    exact h.stack

/-- The calls of a thread do not see how the renaming is continued. -/
theorem Own.stack_continued (h : Own t ν L M) (hM : M.Distinct) :
    L.stack t = (M.stack t).map (OpenCall.rename (continued ν M.next L.next)) := by
  rw [h.stack]
  exact List.map_congr_left fun o ho =>
    (OpenCall.rename_congr (hM.below t o ho) fun i hi => continued_of_lt hi).symm

theorem Own.continued (h : Own t ν L M) (hM : M.Distinct) :
    Own t (continued ν M.next L.next) L M where
  mono := by
    intro a b hab hb
    rw [continued_of_lt (hab.trans hb), continued_of_lt hb]
    exact h.mono a b hab hb
  below := by
    intro n hn
    rw [continued_of_lt hn]
    exact h.below n hn
  stack := h.stack_continued hM

theorem Own.enter (h : Own t ν L M) (hM : M.Distinct) (htid : e.tid = t) (off : Int64) :
    Own t (Traces.continued ν M.next L.next) (L.enter off e) (M.enter off e) := by
  have hlen : (L.stack t).length = (M.stack t).length := by rw [h.stack, List.length_map]
  unfold Ledger.enter
  dsimp only
  rw [htid, hlen]
  by_cases hfull : (M.stack t).length ≥ maxDepth
  · rw [if_pos hfull, if_pos hfull]
    exact h.continued hM
  rw [if_neg hfull, if_neg hfull]
  have hopened := opened_rename off e ν (hM.below t) L.next
  rw [← h.stack] at hopened
  have hle := (opened_number off e (M.stack t) M.next).1
  rw [hopened]
  generalize Ledger.opened off e (M.stack t) M.next = o at hle
  obtain ⟨j, hj⟩ := Nat.exists_eq_add_of_le hle
  have hnumber : (o.rename (Traces.continued ν M.next L.next)).number = L.next + j := by
    show Traces.continued ν M.next L.next o.number = _
    rw [hj, continued_add]
  refine ⟨fun a b hab hb => ?_, fun n hn => ?_, ?_⟩
  · have hb' : b < M.next + j + 1 := hj ▸ hb
    unfold Traces.continued
    by_cases hbm : b < M.next
    · rw [if_pos hbm, if_pos (hab.trans hbm)]
      exact h.mono a b hab hbm
    · rw [if_neg hbm]
      split
      · rename_i ham
        have := h.below a ham
        omega
      · omega
  · have hn' : n < M.next + j + 1 := hj ▸ hn
    show _ < _ + 1
    rw [hnumber]
    unfold Traces.continued
    split
    · rename_i hlt
      have := h.below n hlt
      omega
    · omega
  · dsimp only
    rw [update_self, update_self, List.map_cons, ← h.stack_continued hM]

theorem Own.exit (h : Own t ν L M) (htid : e.tid = t) (off : Int64) :
    Own t ν (L.exit off e) (M.exit off e) := by
  have hstack := h.stack
  unfold Ledger.exit
  rw [htid]
  cases hcalls : M.stack t with
  | nil =>
      rw [hcalls, List.map_nil] at hstack
      rw [hstack]
      exact h
  | cons o rest =>
      rw [hcalls, List.map_cons] at hstack
      rw [hstack]
      refine ⟨h.mono, h.below, ?_⟩
      dsimp only
      rw [update_self, update_self]

/-- **An event of the thread** does the same in both ledgers. -/
theorem Own.step (h : Own t ν L M) (hM : M.Distinct) (htid : e.tid = t)
    (hL' : ∃ L', L.enrol e.tid = some L') (hM' : ∃ M', M.enrol e.tid = some M') (off : Int64) :
    Own t (Traces.continued ν M.next L.next) (L.step off e) (M.step off e) ∧
      L.given off e = (M.given off e).map (Traces.continued ν M.next L.next) ∧
      L.closed off e = (M.closed off e).map (DoneCall.rename (Traces.continued ν M.next L.next)) := by
  obtain ⟨L', hL'⟩ := hL'
  obtain ⟨M', hM'⟩ := hM'
  have h' := h.enrol hL' hM'
  have hd := hM.enrol hM'
  have hstack := h'.stack_continued hd
  have hlen : (L'.stack t).length = (M'.stack t).length := by rw [hstack, List.length_map]
  rw [← (enrol_next hL').1, ← (enrol_next hM').1]
  unfold Ledger.step Ledger.given Ledger.closed
  rw [hL', hM']
  dsimp only
  rw [htid, hlen]
  by_cases hkind : e.kind = 0
  · rw [if_pos hkind, if_pos hkind, if_pos hkind, if_pos hkind]
    refine ⟨h'.enter hd htid off, ?_, rfl⟩
    split
    · rw [h'.stack, opened_rename off e ν (hd.below t)]
      rfl
    · rfl
  · rw [if_neg hkind, if_neg hkind, if_neg hkind, if_neg hkind, if_neg fun hc => hkind hc.1,
      if_neg fun hc => hkind hc.1]
    refine ⟨(h'.continued hd).exit htid off, rfl, ?_⟩
    cases hcalls : M'.stack t with
    | nil =>
        rw [hcalls, List.map_nil] at hstack
        rw [hstack]
        rfl
    | cons o rest =>
        rw [hcalls, List.map_cons] at hstack
        rw [hstack]
        rfl

/-- What a step gives and ends has numbers that are drawn by then. -/
theorem given_lt (off : Int64) {n : Nat} (h : L.given off e = some n) :
    n < (L.step off e).next := by
  unfold Ledger.given at h
  unfold Ledger.step
  cases ha : L.enrol e.tid with
  | none =>
      rw [ha] at h
      cases h
  | some L' =>
      rw [ha] at h
      dsimp only at h ⊢
      split at h
      · rename_i hc
        obtain rfl := Option.some.inj h
        rw [if_pos hc.1, Ledger.enter, if_neg (Nat.not_le.mpr hc.2)]
        exact Nat.lt_succ_self _
      · cases h

theorem closed_below (off : Int64) (hL : L.Distinct) {c : DoneCall} (h : c ∈ L.closed off e) :
    c.toOpenCall.Below L.next := by
  have hout := (hL.step off e).belowDone c (by
    rw [Ledger.step_out]
    exact List.mem_append_right _ h)
  unfold Ledger.closed at h
  unfold Ledger.step at hout
  cases ha : L.enrol e.tid with
  | none =>
      rw [ha] at h
      cases h
  | some L' =>
      rw [ha] at h hout
      dsimp only at h hout
      split at h
      · cases h
      · rename_i hkind
        rwa [if_neg hkind, exit_next, (enrol_next ha).1] at hout

end

/-- **A thread's calls are its own**: in the ledger of a stream they are those of the thread's
events alone, by other numbers. -/
theorem run_own (off : Int64) (ev : List SpanEvent) :
    ∀ (L M : Ledger) (ν : Nat → Nat), Own t ν L M → M.Distinct → L.Admits ev →
      M.Admits (ev.filter (·.tid = t)) →
      ∃ ν', (∀ n, n < M.next → ν' n = ν n) ∧
        Own t ν' (ev.foldl (Ledger.step off) L)
          ((ev.filter (·.tid = t)).foldl (Ledger.step off) M) ∧
        L.numbersFrom t off ev =
          (M.numbersFrom t off (ev.filter (·.tid = t))).map (Option.map ν') ∧
        L.callsFrom t off ev =
          (M.callsFrom t off (ev.filter (·.tid = t))).map (DoneCall.rename ν') := by
  induction ev with
  | nil => exact fun L M ν h _ _ _ => ⟨ν, fun _ _ => rfl, h, rfl, rfl⟩
  | cons e ev ih =>
      intro L M ν h hM hL hMa
      obtain ⟨hL', hLnext⟩ := hL.step off
      by_cases htid : e.tid = t
      · rw [List.filter_cons_of_pos (by simpa using htid)] at hMa ⊢
        obtain ⟨hM', hMnext⟩ := hMa.step off
        obtain ⟨hown, hgiven, hclosed⟩ := h.step hM htid hL' hM' off
        obtain ⟨ν', hν, hown', hnumbers, hcalls⟩ := ih _ _ _ hown (hM.step off e) hLnext hMnext
        have hold : ∀ n, n < M.next → ν' n = ν n := fun n hn => by
          rw [hν n (hn.trans_le (next_le_step off M e)), continued_of_lt hn]
        refine ⟨ν', hold, hown', ?_, ?_⟩
        · rw [Ledger.numbersFrom, Ledger.numbersFrom, if_pos htid, if_pos htid, List.map_append,
            hnumbers, hgiven]
          congr 1
          rw [List.map_singleton]
          cases hg : M.given off e with
          | none => rfl
          | some n => rw [Option.map_some, Option.map_some, hν n (given_lt off hg)]
        · rw [Ledger.callsFrom, Ledger.callsFrom, if_pos htid, if_pos htid, List.map_append, hcalls,
            hclosed]
          congr 1
          refine List.map_congr_left fun c hc => ?_
          unfold DoneCall.rename
          rw [OpenCall.rename_congr (closed_below off hM hc) fun i hi =>
            (hν i (hi.trans_le (next_le_step off M e))).symm]
      · rw [List.filter_cons_of_neg (by simpa using htid)] at hMa ⊢
        obtain ⟨ν', hν, hown', hnumbers, hcalls⟩ :=
          ih _ _ _ (h.other htid off) hM hLnext hMa
        refine ⟨ν', hν, hown', ?_, ?_⟩
        · rw [Ledger.numbersFrom, if_neg htid, List.nil_append, hnumbers]
        · rw [Ledger.callsFrom, if_neg htid, List.nil_append, hcalls]

/-! ### Parents -/

/-- Each call's parent is the call around it. -/
def Linked : List OpenCall → Prop
  | []        => True
  | o :: rest => o.parent = rest.head?.map OpenCall.number ∧ Linked rest

theorem linked_opened (off : Int64) (e : SpanEvent) {calls : List OpenCall} (h : Linked calls)
    (n : Nat) : Linked (Ledger.opened off e calls n :: calls) := by
  cases calls with
  | nil => exact ⟨rfl, h⟩
  | cons o calls => exact ⟨rfl, h⟩

/-- The thread's stack after an event of its own: as before, with a call more, or with a call less
that the event ended. -/
theorem step_stack (htid : e.tid = t) (henrol : ∃ L', L.enrol e.tid = some L') (off : Int64) :
    ((L.step off e).stack t = L.stack t ∧ L.closed off e = []) ∨
      ((L.step off e).stack t = Ledger.opened off e (L.stack t) L.next :: L.stack t ∧
        L.given off e = some (Ledger.opened off e (L.stack t) L.next).number ∧
        L.closed off e = []) ∨
      ∃ o rest, L.stack t = o :: rest ∧ (L.step off e).stack t = rest ∧
        L.closed off e = [⟨o, t, unixNs off e⟩] := by
  obtain ⟨L', henrol⟩ := henrol
  obtain ⟨hnext, hstack, -⟩ := enrol_next henrol
  unfold Ledger.step Ledger.given Ledger.closed
  rw [henrol]
  dsimp only
  rw [← hnext, ← hstack, htid]
  by_cases hkind : e.kind = 0
  · rw [if_pos hkind, if_pos hkind, Ledger.enter]
    dsimp only
    rw [htid]
    by_cases hfull : (L'.stack t).length ≥ maxDepth
    · rw [if_pos hfull]
      exact .inl ⟨rfl, rfl⟩
    · rw [if_neg hfull, if_pos ⟨hkind, Nat.not_le.mp hfull⟩]
      exact .inr (.inl ⟨update_self _ _ _, rfl, rfl⟩)
  · rw [if_neg hkind, if_neg hkind, Ledger.exit, htid]
    cases hcalls : L'.stack t with
    | nil => exact .inl ⟨hcalls, rfl⟩
    | cons o rest => exact .inr (.inr ⟨o, rest, rfl, update_self _ _ _, rfl⟩)

/-- **The calls a thread ends are calls it opened**, and so are their parents. -/
theorem calls_given (ev : List SpanEvent) (L : Ledger) (hL : L.Admits ev) (h : Linked (L.stack t)) :
    ∀ c ∈ L.callsFrom t off ev, ∀ n, n = c.number ∨ c.parent = some n →
      some n ∈ L.numbersFrom t off ev ∨ n ∈ (L.stack t).map OpenCall.number := by
  induction ev generalizing L with
  | nil =>
      intro c hc
      cases hc
  | cons e ev ih =>
      intro c hc n hn
      obtain ⟨henrol, hL'⟩ := hL.step off
      rw [Ledger.callsFrom] at hc
      rw [Ledger.numbersFrom]
      by_cases htid : e.tid = t
      · rw [if_pos htid] at hc ⊢
        rcases step_stack htid henrol off with
          ⟨hstack, hclosed⟩ | ⟨hstack, hgiven, hclosed⟩ | ⟨o, rest, hcalls, hstack, hclosed⟩
        · rw [hclosed, List.nil_append] at hc
          rcases ih _ hL' (hstack ▸ h) c hc n hn with hin | hin
          · exact .inl (List.mem_append_right _ hin)
          · exact .inr (hstack ▸ hin)
        · rw [hclosed, List.nil_append] at hc
          rcases ih _ hL' (hstack ▸ linked_opened off e h L.next) c hc n hn with hin | hin
          · exact .inl (List.mem_append_right _ hin)
          · rw [hstack, List.map_cons] at hin
            rcases List.mem_cons.mp hin with rfl | hin
            · exact .inl (List.mem_append_left _ (by rw [hgiven]; exact List.mem_singleton_self _))
            · exact .inr hin
        · rw [hcalls] at h ⊢
          rw [hclosed] at hc
          rcases List.mem_append.mp hc with hc | hc
          · obtain rfl := List.mem_singleton.mp hc
            refine .inr ?_
            rcases hn with rfl | hn
            · exact List.mem_cons_self
            · refine List.mem_cons_of_mem _ ?_
              obtain ⟨parent, hhead, rfl⟩ := Option.map_eq_some_iff.mp (h.1.symm.trans hn)
              exact List.mem_map_of_mem (List.mem_of_head? hhead)
          · rcases ih _ hL' (hstack ▸ h.2) c hc n hn with hin | hin
            · exact .inl (List.mem_append_right _ hin)
            · exact .inr (List.mem_cons_of_mem _ (hstack ▸ hin))
      · have hstack : (L.step off e).stack t = L.stack t := step_other htid off L
        rw [if_neg htid, List.nil_append] at hc ⊢
        rcases ih _ hL' (hstack ▸ h) c hc n hn with hin | hin
        · exact .inl hin
        · exact .inr (hstack ▸ hin)

theorem next_le_run (off : Int64) (ev : List SpanEvent) (L : Ledger) :
    L.next ≤ (ev.foldl (Ledger.step off) L).next := by
  induction ev generalizing L with
  | nil => exact le_refl _
  | cons e ev ih => exact (next_le_step off L e).trans (ih (L.step off e))

/-- The numbers a thread gets have been drawn by the end. -/
theorem numbers_lt (ev : List SpanEvent) (L : Ledger) :
    ∀ n, some n ∈ L.numbersFrom t off ev → n < (ev.foldl (Ledger.step off) L).next := by
  induction ev generalizing L with
  | nil =>
      intro n hn
      cases hn
  | cons e ev ih =>
      intro n hn
      rw [Ledger.numbersFrom] at hn
      rw [List.foldl_cons]
      rcases List.mem_append.mp hn with hn | hn
      · split at hn
        · exact (given_lt off (List.mem_singleton.mp hn).symm).trans_le (next_le_run off ev _)
        · cases hn
      · exact ih _ n hn

/-- The calls a thread ends have numbers that are drawn by the end. -/
theorem calls_below (ev : List SpanEvent) (L : Ledger) (hL : L.Distinct) :
    ∀ c ∈ L.callsFrom t off ev, c.toOpenCall.Below (ev.foldl (Ledger.step off) L).next := by
  induction ev generalizing L with
  | nil =>
      intro c hc
      cases hc
  | cons e ev ih =>
      intro c hc
      rw [Ledger.callsFrom] at hc
      rw [List.foldl_cons]
      rcases List.mem_append.mp hc with hc | hc
      · split at hc
        · exact (closed_below off hL hc).mono ((next_le_step off L e).trans (next_le_run off ev _))
        · cases hc
      · exact ih _ (hL.step off e) c hc

end

/-! ### Two runs -/

theorem length_putU64Be (v : UInt64) : (putU64Be v).length = 8 := by
  rw [putU64Be, List.length_map, List.length_range]

theorem idOf_of_traceOf {seed : UInt64} {m n : Nat} (h : traceOf seed m = traceOf seed n) :
    idOf seed m = idOf seed n :=
  List.append_inj_left h ((length_putU64Be _).trans (length_putU64Be _).symm)

/-- An event ends at most one call. -/
theorem length_closed_le (off : Int64) (L : Ledger) (e : SpanEvent) :
    (L.closed off e).length ≤ 1 := by
  unfold Ledger.closed
  split
  · exact Nat.zero_le _
  · split
    · exact Nat.zero_le _
    · split
      · exact Nat.zero_le _
      · exact le_refl _

theorem length_out_le (off : Int64) (ev : List SpanEvent) (L : Ledger) :
    (ev.foldl (Ledger.step off) L).out.length ≤ L.out.length + ev.length := by
  induction ev generalizing L with
  | nil => exact le_refl _
  | cons e ev ih =>
      have hstep := ih (L.step off e)
      have hone := length_closed_le off L e
      rw [Ledger.step_out, List.length_append] at hstep
      rw [List.foldl_cons, List.length_cons]
      omega

theorem admits_empty {ev : List SpanEvent} (h : (ev.map SpanEvent.tid).toFinset.card ≤ maxTids) :
    Ledger.empty.Admits ev :=
  ⟨List.nodup_nil, h⟩

theorem card_tids_filter {ev : List SpanEvent} (t : UInt64)
    (h : (ev.map SpanEvent.tid).toFinset.card ≤ maxTids) :
    ((ev.filter (·.tid = t)).map SpanEvent.tid).toFinset.card ≤ maxTids := by
  refine (Finset.card_le_card fun x hx => ?_).trans h
  rw [List.mem_toFinset] at hx ⊢
  exact (List.filter_sublist.map _).subset hx

/-- **What a run shows of a thread**: the calls of its own events, under ids that tell them
apart. -/
theorem thread_view (t : UInt64) (slots : Nat → TidSlot) (ev : List SpanEvent) (off : Int64)
    (seed : UInt64) (maxOut : Nat) (hmem : Addressable ev)
    (htids : (ev.map SpanEvent.tid).toFinset.card ≤ maxTids)
    (hroom : (otlpTracesAssemble slots ev off seed ev.length).length ≤ maxOut) :
    ∃ id trace : Nat → List UInt8,
      Set.InjOn id {n | n < (Ledger.run off (ev.filter (·.tid = t))).next} ∧
      Set.InjOn trace {n | n < (Ledger.run off (ev.filter (·.tid = t))).next} ∧
      threadIds t slots ev off seed maxOut =
        (Ledger.empty.numbersFrom t off (ev.filter (·.tid = t))).map (Option.map id) ∧
      threadSpans t slots ev off seed maxOut =
        (Ledger.empty.callsFrom t off (ev.filter (·.tid = t))).map (DoneCall.span id trace) := by
  have hstart : Own t (fun n => n) .empty .empty :=
    ⟨fun _ _ hab _ => hab, fun _ hn => hn, rfl⟩
  obtain ⟨ν, -, hown, hnumbers, hcalls⟩ := run_own off ev _ _ _ hstart
    Ledger.Distinct.empty (admits_empty htids) (admits_empty (card_tids_filter t htids))
  have hinj : Set.InjOn (idOf seed ∘ ν) {n | n < (Ledger.run off (ev.filter (·.tid = t))).next} := by
    have hlt : ∀ n, n < (Ledger.run off (ev.filter (·.tid = t))).next → ν n < 2 ^ 64 :=
      fun n hn => (hown.below n hn).trans_le (next_run_le off hmem)
    intro a ha b hb h
    have heq := idOf_injOn seed (hlt a ha) (hlt b hb) h
    rcases Nat.lt_trichotomy a b with hab | rfl | hab
    · exact absurd heq (hown.mono a b hab hb).ne
    · rfl
    · exact absurd heq (hown.mono b a hab ha).ne'
  have hfull : (Ledger.run off ev).out.length ≤ maxOut := by
    have hout : otlpTracesAssemble slots ev off seed ev.length =
        ((Ledger.run off ev).out.take ev.length).map (DoneCall.span (idOf seed) (traceOf seed)) :=
      (run_represents slots ev).out
    have hle : (Ledger.run off ev).out.length ≤ 0 + ev.length := length_out_le off ev .empty
    rw [hout, List.length_map, List.length_take] at hroom
    omega
  refine ⟨idOf seed ∘ ν, traceOf seed ∘ ν, hinj, fun a ha b hb h => hinj ha hb (idOf_of_traceOf h),
    ?_, ?_⟩
  · rw [threadIds, idsFrom_eq (represents_start slots), hnumbers, List.map_map]
    exact List.map_congr_left fun n _ => Option.map_map ..
  · rw [threadSpans, spansFrom_eq (represents_start slots) hfull, hcalls, List.map_map]
    exact List.map_congr_left fun c _ => DoneCall.span_rename ..

/-- The span of a call under other ids. -/
theorem DoneCall.rename_span {ids traces : List UInt8 → List UInt8}
    {id₁ trace₁ id₂ trace₂ : Nat → List UInt8} {c : DoneCall} {n : Nat} (hc : c.toOpenCall.Below n)
    (hids : ∀ i, i < n → ids (id₁ i) = id₂ i) (htraces : ∀ i, i < n → traces (trace₁ i) = trace₂ i) :
    (DoneCall.span id₁ trace₁ c).rename ids traces = DoneCall.span id₂ trace₂ c := by
  unfold DoneCall.span Span.rename
  dsimp only
  rw [hids _ hc.number, htraces _ (Nat.lt_of_succ_lt hc.root)]
  cases hp : c.parent with
  | none => rfl
  | some p =>
      rw [Option.isSome_some, if_pos rfl, Option.map_some, Option.map_some, Option.getD_some,
        Option.getD_some, hids p (hc.parent p hp)]

/-- Labels that tell numbers apart can be exchanged for any others. -/
theorem exists_relabel {N : Nat} {f : Nat → List UInt8} (g : Nat → List UInt8)
    (hf : Set.InjOn f {n | n < N}) : ∃ ρ : List UInt8 → List UInt8, ∀ n, n < N → ρ (f n) = g n :=
  ⟨fun x => g (invFunOn f {n | n < N} x), fun _ hn =>
    congrArg g (hf.leftInvOn_invFunOn hn)⟩

/-- **Threads do not influence each other's spans.**  Take two streams in memory with at most 64
threads each, room for every span, and the same clock offset, whatever the seeds and what the slots
held.  If they have the same events of thread `t`, then a renaming of ids takes the ids that these
events gave to the calls they opened, event by event, and the spans emitted for `t` in the one run
to those in the other: as many spans in the same order, with the same methods, starts and ends, and
with the same parents among the calls of `t`. -/
theorem threads_apart (t : UInt64) (off : Int64) (slots₁ slots₂ : Nat → TidSlot)
    (ev₁ ev₂ : List SpanEvent) (seed₁ seed₂ : UInt64) (maxOut₁ maxOut₂ : Nat)
    (hmem₁ : Addressable ev₁) (hmem₂ : Addressable ev₂)
    (htids₁ : (ev₁.map SpanEvent.tid).toFinset.card ≤ maxTids)
    (htids₂ : (ev₂.map SpanEvent.tid).toFinset.card ≤ maxTids)
    (hroom₁ : (otlpTracesAssemble slots₁ ev₁ off seed₁ ev₁.length).length ≤ maxOut₁)
    (hroom₂ : (otlpTracesAssemble slots₂ ev₂ off seed₂ ev₂.length).length ≤ maxOut₂)
    (hsame : ev₁.filter (·.tid = t) = ev₂.filter (·.tid = t)) :
    ∃ ids traces : List UInt8 → List UInt8,
      Set.InjOn ids {id | some id ∈ threadIds t slots₁ ev₁ off seed₁ maxOut₁} ∧
      Set.InjOn traces {id | ∃ s ∈ threadSpans t slots₁ ev₁ off seed₁ maxOut₁, s.traceId = id} ∧
      threadIds t slots₂ ev₂ off seed₂ maxOut₂ =
        (threadIds t slots₁ ev₁ off seed₁ maxOut₁).map (Option.map ids) ∧
      threadSpans t slots₂ ev₂ off seed₂ maxOut₂ =
        (threadSpans t slots₁ ev₁ off seed₁ maxOut₁).map (Span.rename ids traces) ∧
      ∀ s ∈ threadSpans t slots₁ ev₁ off seed₁ maxOut₁,
        some s.spanId ∈ threadIds t slots₁ ev₁ off seed₁ maxOut₁ ∧
        (s.hasParent = true →
          some s.parentSpanId ∈ threadIds t slots₁ ev₁ off seed₁ maxOut₁) := by
  obtain ⟨id₁, trace₁, hid₁, htrace₁, hids₁, hspans₁⟩ :=
    thread_view t slots₁ ev₁ off seed₁ maxOut₁ hmem₁ htids₁ hroom₁
  obtain ⟨id₂, trace₂, hid₂, htrace₂, hids₂, hspans₂⟩ :=
    thread_view t slots₂ ev₂ off seed₂ maxOut₂ hmem₂ htids₂ hroom₂
  rw [← hsame] at hid₂ htrace₂ hids₂ hspans₂
  have hgiven : ∀ c ∈ Ledger.empty.callsFrom t off (ev₁.filter (·.tid = t)), _ :=
    calls_given _ .empty (admits_empty (card_tids_filter t htids₁)) trivial
  have hlt : ∀ n, some n ∈ Ledger.empty.numbersFrom t off (ev₁.filter (·.tid = t)) →
      n < (Ledger.run off (ev₁.filter (·.tid = t))).next := numbers_lt _ .empty
  have hbelow : ∀ c ∈ Ledger.empty.callsFrom t off (ev₁.filter (·.tid = t)),
      c.toOpenCall.Below (Ledger.run off (ev₁.filter (·.tid = t))).next :=
    calls_below _ .empty Ledger.Distinct.empty
  rw [hids₁, hspans₁, hids₂, hspans₂]
  generalize Ledger.empty.numbersFrom t off (ev₁.filter (·.tid = t)) = numbers at hgiven hlt
  generalize Ledger.empty.callsFrom t off (ev₁.filter (·.tid = t)) = calls at hgiven hbelow
  obtain ⟨ids, hids⟩ := exists_relabel id₂ hid₁
  obtain ⟨traces, htraces⟩ := exists_relabel trace₂ htrace₁
  have hnumber : ∀ x, some x ∈ numbers.map (Option.map id₁) → ∃ n, some n ∈ numbers ∧ id₁ n = x := by
    intro x hx
    obtain ⟨n, hn, hnx⟩ := List.mem_map.mp hx
    obtain ⟨n, rfl, rfl⟩ := Option.map_eq_some_iff.mp hnx
    exact ⟨n, hn, rfl⟩
  refine ⟨ids, traces, ?_, ?_, ?_, ?_, ?_⟩
  · intro x hx y hy h
    obtain ⟨m, hm, rfl⟩ := hnumber x hx
    obtain ⟨n, hn, rfl⟩ := hnumber y hy
    rw [hids m (hlt m hm), hids n (hlt n hn)] at h
    rw [hid₂ (hlt m hm) (hlt n hn) h]
  · rintro x ⟨s, hs, rfl⟩ y ⟨s', hs', rfl⟩ h
    obtain ⟨c, hc, rfl⟩ := List.mem_map.mp hs
    obtain ⟨c', hc', rfl⟩ := List.mem_map.mp hs'
    have hr := Nat.lt_of_succ_lt (hbelow c hc).root
    have hr' := Nat.lt_of_succ_lt (hbelow c' hc').root
    have hroots : traces (trace₁ c.root) = traces (trace₁ c'.root) := h
    rw [htraces _ hr, htraces _ hr'] at hroots
    exact congrArg trace₁ (htrace₂ hr hr' hroots)
  · rw [List.map_map]
    refine List.map_congr_left fun n hn => ?_
    cases n with
    | none => rfl
    | some n => exact congrArg some (hids n (hlt n hn)).symm
  · rw [List.map_map]
    exact List.map_congr_left fun c hc => (DoneCall.rename_span (hbelow c hc) hids htraces).symm
  · intro s hs
    obtain ⟨c, hc, rfl⟩ := List.mem_map.mp hs
    have hmem : ∀ n, n = c.number ∨ c.parent = some n →
        some (id₁ n) ∈ numbers.map (Option.map id₁) := by
      intro n hn
      rcases hgiven c hc n hn with hin | hin
      · exact List.mem_map.mpr ⟨some n, hin, rfl⟩
      · cases hin
    refine ⟨hmem c.number (.inl rfl), fun hparent => ?_⟩
    obtain ⟨p, hp⟩ := Option.isSome_iff_exists.mp hparent
    have := hmem p (.inr hp)
    unfold DoneCall.span
    rw [hp]
    exact this

/-- The calls of `insideCall` among those of another thread. -/
def amongOthers : List SpanEvent :=
  [⟨0, 9, 5, 8⟩, ⟨0, 1, 10, 7⟩, ⟨0, 9, 15, 8⟩, ⟨0, 2, 20, 7⟩, ⟨1, 2, 30, 7⟩, ⟨1, 9, 35, 8⟩,
    ⟨1, 1, 40, 7⟩]

theorem threads_apart_amongOthers :
    (threadSpans 7 blankSlots insideCall 0 1 2).length = 2 ∧
      ∃ ids traces : List UInt8 → List UInt8,
        threadSpans 7 blankSlots amongOthers 0 5 3 =
          (threadSpans 7 blankSlots insideCall 0 1 2).map (Span.rename ids traces) := by
  obtain ⟨ids, traces, -, -, -, h, -⟩ :=
    threads_apart 7 0 blankSlots blankSlots insideCall amongOthers 1 5 2 3 (by decide) (by decide)
      (by decide) (by decide) (by decide) (by decide) (by decide)
  exact ⟨by decide, ids, traces, h⟩

end SpinelEbpf.Otlp.Traces

import SpinelEbpf.Otlp.Batch

/-!
# Otlp — what becomes of a span that was sent

Each span that a send accepts is in one attempt, in order and to its own endpoint, or still in the
buffer (`Sender.line`).  Two operations break that: a send to another endpoint than the open
batch's, and a one-call push while a batch is open.  No later operation repairs it, so a run that
ends with a flush delivers what it accepted exactly if neither occurs in it (`delivered_iff`).

The spans of a one-call push are cut into groups, each of which is one attempt if its body can be
built (`otlpPush_groups`).
-/

namespace SpinelEbpf.Otlp

/-- The longest batch is between 1 and the room of the buffer. -/
theorem otlpBatchEnvMax_bounds (env : Option Int) :
    1 ≤ otlpBatchEnvMax env ∧ otlpBatchEnvMax env ≤ batchHardMax := by
  unfold otlpBatchEnvMax batchHardMax
  dsimp only
  split <;> split_ifs <;> omega

/-- A span that fits its slot is copied as it is. -/
theorem SlotSpan.copied (s : SlotSpan) :
    s.span.copied = { s.span with name := some (s.span.name.getD "") } := by
  have hname : (s.span.name.getD "").toList.take (batchNameCap - 1) =
      (s.span.name.getD "").toList :=
    List.take_of_length_le (by
      have := s.name
      rw [String.length_toList, batchNameCap]
      rw [evNameCap] at this
      omega)
  have hattrs : s.span.attrs.take batchAttrCap = s.span.attrs := List.take_of_length_le s.attrs
  rw [GenericSpan.copied, hname, hattrs, String.ofList_toList]

/-! ### The line -/

/-- The spans of a request that sends handed over, with the endpoint of the request. -/
def sentTo (endpoint : Option String) (spans : List Buffered) :
    List (GenericSpan × Option String) :=
  (spans.filter Buffered.sent).map fun b => (b.span, endpoint)

/-- The spans of sends that are in attempts. -/
def Sender.delivered (st : Sender) : List (GenericSpan × Option String) :=
  st.attempts.flatMap fun a => sentTo a.endpoint a.spans

/-- The spans of sends that are in attempts or buffered. -/
def Sender.line (st : Sender) : List (GenericSpan × Option String) :=
  st.delivered ++ sentTo st.batch.endpoint st.batch.spans

theorem sentTo_append (endpoint : Option String) (xs ys : List Buffered) :
    sentTo endpoint (xs ++ ys) = sentTo endpoint xs ++ sentTo endpoint ys := by
  rw [sentTo, List.filter_append, List.map_append]
  rfl

/-- The batch has room for one more span once it is flushed. -/
structure Sender.Fits (st : Sender) : Prop where
  pos : 1 ≤ st.batch.max
  le : st.batch.max ≤ batchHardMax
  spans : st.batch.spans.length ≤ st.batch.max

theorem otlpBatchBegin_fits (endpoint : String) (env : Env) (st : Sender) :
    (otlpBatchBegin endpoint env st).Fits :=
  ⟨(otlpBatchEnvMax_bounds _).1, (otlpBatchEnvMax_bounds _).2, Nat.zero_le _⟩

/-! ### Groups -/

/-- The attempt that a flush of these spans is, if there is one. -/
def attempt (c : Collector) (endpoint : Option String) (resource : Resource)
    (group : List Buffered) : Option Attempt :=
  (c.build resource (group.map Buffered.span)).map fun body => ⟨endpoint, body, group⟩

/-- **A flush makes one attempt of what is buffered**, and clears the buffer in any case. -/
theorem otlpBatchFlush_group (c : Collector) (st : Sender) :
    ∃ groups : List (List Buffered), groups.flatten = st.batch.spans ∧
      (otlpBatchFlush c st).2.attempts =
        st.attempts ++ groups.filterMap (attempt c st.batch.endpoint st.batch.resource) ∧
      (otlpBatchFlush c st).2.batch.spans = [] ∧
      (otlpBatchFlush c st).2.batch.endpoint = st.batch.endpoint ∧
      (otlpBatchFlush c st).2.batch.resource = st.batch.resource ∧
      (otlpBatchFlush c st).2.batch.max = st.batch.max := by
  unfold otlpBatchFlush
  dsimp only
  by_cases hempty : st.batch.spans = []
  · rw [if_pos hempty]
    exact ⟨[], hempty.symm, (List.append_nil _).symm, hempty, rfl, rfl, rfl⟩
  · rw [if_neg hempty]
    refine ⟨[st.batch.spans], List.append_nil _, ?_⟩
    rw [List.filterMap_cons, List.filterMap_nil, attempt]
    cases c.build st.batch.resource (st.batch.spans.map Buffered.span) with
    | none => exact ⟨(List.append_nil _).symm, rfl, rfl, rfl, rfl⟩
    | some body => cases c.respond st.attempts.length <;> exact ⟨rfl, rfl, rfl, rfl, rfl⟩

/-- What was added since the batch began is in groups that were flushed, or buffered. -/
structure Grouped (c : Collector) (st₀ : Sender) (added : List Buffered) (st : Sender) : Prop where
  fits : st.Fits
  endpoint : st.batch.endpoint = st₀.batch.endpoint
  resource : st.batch.resource = st₀.batch.resource
  groups : ∃ groups : List (List Buffered), groups.flatten ++ st.batch.spans = added ∧
    st.attempts = st₀.attempts ++
      groups.filterMap (attempt c st₀.batch.endpoint st₀.batch.resource)

section

variable {c : Collector} {st₀ st : Sender} {added : List Buffered}

theorem Grouped.flush (h : Grouped c st₀ added st) :
    Grouped c st₀ added (otlpBatchFlush c st).2 ∧ (otlpBatchFlush c st).2.batch.spans = [] ∧
      (otlpBatchFlush c st).2.batch.max = st.batch.max := by
  obtain ⟨group, hgroup, hattempts, hempty, hendpoint, hresource, hmax⟩ := otlpBatchFlush_group c st
  obtain ⟨groups, hflat, hold⟩ := h.groups
  refine ⟨⟨⟨hmax ▸ h.fits.pos, hmax ▸ h.fits.le, hempty ▸ Nat.zero_le _⟩,
    hendpoint.trans h.endpoint, hresource.trans h.resource, groups ++ group, ?_, ?_⟩, hempty, hmax⟩
  · rw [hempty, List.append_nil, List.flatten_append, hgroup, hflat]
  · rw [hattempts, hold, h.endpoint, h.resource, List.filterMap_append, List.append_assoc]

theorem Grouped.store (h : Grouped c st₀ added st) (hlt : st.batch.spans.length < st.batch.max)
    (b : Buffered) : Grouped c st₀ (added ++ [b])
      { st with batch := { st.batch with spans := st.batch.spans ++ [b] } } := by
  obtain ⟨groups, hflat, hold⟩ := h.groups
  refine ⟨⟨h.fits.pos, h.fits.le, ?_⟩, h.endpoint, h.resource, groups, ?_, hold⟩
  · rw [List.length_append, List.length_singleton]
    exact hlt
  · rw [← List.append_assoc, hflat]

/-- **Step**: an added span is the last of the groups. -/
theorem Grouped.add (h : Grouped c st₀ added st) (s : GenericSpan) :
    Grouped c st₀ (added ++ [⟨s.copied, false⟩]) (otlpBatchAdd c false s st).2 := by
  unfold otlpBatchAdd
  by_cases hfull : st.batch.spans.length ≥ st.batch.max
  · obtain ⟨hflushed, hempty, hmax⟩ := h.flush
    dsimp only
    rw [if_pos hfull, if_neg (by rw [hempty]; decide)]
    exact hflushed.store (by rw [hempty, hmax]; exact h.fits.pos) _
  · dsimp only
    rw [if_neg hfull, if_neg (Nat.not_le.mpr ((Nat.not_le.mp hfull).trans_le h.fits.le))]
    exact h.store (Nat.not_le.mp hfull) _

/-- **Run**: so are those of a push, in order. -/
theorem Grouped.foldl_add (h : Grouped c st₀ added st) (spans : List GenericSpan) :
    Grouped c st₀ (added ++ spans.map fun s => ⟨s.copied, false⟩)
      (spans.foldl (fun st s => (otlpBatchAdd c false s st).2) st) := by
  induction spans generalizing added st with
  | nil => rwa [List.map_nil, List.append_nil]
  | cons s spans ih =>
      have hrest := ih (h.add s)
      rwa [List.append_assoc] at hrest

end

/-- **The spans of a push are handed to the batch once and in order**: they are cut into groups, and
the attempts of the push are those of the groups. -/
theorem otlpPush_groups (c : Collector) (endpoint : String) (env : Env) (spans : List GenericSpan)
    (st : Sender) :
    ∃ groups : List (List Buffered), groups.flatten = spans.map (fun s => ⟨s.copied, false⟩) ∧
      (otlpPush c endpoint env spans st).attempts =
        st.attempts ++ groups.filterMap (attempt c (some endpoint) env.resource) := by
  have hbegin : Grouped c (otlpBatchBegin endpoint env st) [] (otlpBatchBegin endpoint env st) :=
    ⟨otlpBatchBegin_fits endpoint env st, rfl, rfl, [], rfl, (List.append_nil _).symm⟩
  obtain ⟨hdone, hempty, -⟩ := (hbegin.foldl_add spans).flush
  obtain ⟨groups, hflat, hattempts⟩ := hdone.groups
  rw [hempty, List.append_nil] at hflat
  exact ⟨groups, hflat, hattempts⟩

section

variable {st : Sender} {c : Collector} (hbuild : ∀ r spans, (c.build r spans).isSome)

include hbuild

/-- **A flush moves the buffer into an attempt.** -/
theorem otlpBatchFlush_spec (st : Sender) :
    (otlpBatchFlush c st).2.delivered = st.line ∧ (otlpBatchFlush c st).2.batch.spans = [] ∧
      (otlpBatchFlush c st).2.batch.endpoint = st.batch.endpoint ∧
      (otlpBatchFlush c st).2.batch.max = st.batch.max := by
  unfold otlpBatchFlush
  dsimp only
  by_cases hempty : st.batch.spans = []
  · rw [if_pos hempty]
    refine ⟨?_, hempty, rfl, rfl⟩
    rw [Sender.line, hempty]
    exact (List.append_nil _).symm
  · rw [if_neg hempty]
    obtain ⟨body, hbody⟩ := Option.isSome_iff_exists.mp
      (hbuild st.batch.resource (st.batch.spans.map Buffered.span))
    have hmoved : (st.attempts ++ [Attempt.mk st.batch.endpoint body st.batch.spans]).flatMap
        (fun a => sentTo a.endpoint a.spans) = st.line := by
      rw [List.flatMap_append, List.flatMap_singleton]
      rfl
    rw [hbody]
    dsimp only
    cases c.respond st.attempts.length with
    | none => exact ⟨hmoved, rfl, rfl, rfl⟩
    | some status => exact ⟨hmoved, rfl, rfl, rfl⟩

/-- The state in which `otlp_batch_add` stores its span. -/
theorem add_room (h : st.Fits) :
    ∃ st' : Sender, (if st.batch.spans.length ≥ st.batch.max then (otlpBatchFlush c st).2 else st) =
      st' ∧ st'.line = st.line ∧ st'.batch.spans.length < st'.batch.max ∧
      st'.batch.endpoint = st.batch.endpoint ∧ st'.batch.max = st.batch.max ∧
      ∀ b ∈ st'.batch.spans, b ∈ st.batch.spans := by
  by_cases hfull : st.batch.spans.length ≥ st.batch.max
  · obtain ⟨hline, hempty, hendpoint, hmax⟩ := otlpBatchFlush_spec hbuild st
    refine ⟨_, if_pos hfull, ?_, ?_, hendpoint, hmax, ?_⟩
    · rw [Sender.line, hempty, hline]
      exact List.append_nil _
    · rw [hempty, hmax]
      exact h.pos
    · rw [hempty]
      exact fun b hb => absurd hb List.not_mem_nil
  · exact ⟨st, if_neg hfull, rfl, Nat.not_le.mp hfull, rfl, rfl, fun b hb => hb⟩

/-- **An added span is at the end of the line.** -/
theorem otlpBatchAdd_spec (sent : Bool) (s : GenericSpan) (h : st.Fits) :
    (otlpBatchAdd c sent s st).2.Fits ∧
      (otlpBatchAdd c sent s st).2.line =
        st.line ++ (if sent then [(s.copied, st.batch.endpoint)] else []) ∧
      (otlpBatchAdd c sent s st).2.batch.endpoint = st.batch.endpoint ∧
      (otlpBatchAdd c sent s st).2.batch.spans ≠ [] ∧
      ∀ b ∈ (otlpBatchAdd c sent s st).2.batch.spans, b ∈ st.batch.spans ∨ b.sent = sent := by
  obtain ⟨st', hst', hline, hlt, hendpoint, hmax, hmem⟩ := add_room hbuild h
  have hroom : ¬ st'.batch.spans.length ≥ batchHardMax :=
    Nat.not_le.mpr ((hmax ▸ hlt).trans_le h.le)
  have hadd : otlpBatchAdd c sent s st = (1, { st' with batch :=
      { st'.batch with spans := st'.batch.spans ++ [⟨s.copied, sent⟩] } }) := by
    unfold otlpBatchAdd
    rw [hst']
    exact if_neg hroom
  rw [hadd]
  refine ⟨⟨hmax ▸ h.pos, hmax ▸ h.le, ?_⟩, ?_, hendpoint, ?_, fun b hb => ?_⟩
  · rw [List.length_append, List.length_singleton]
    exact hlt
  · rw [← hline, ← hendpoint]
    show st'.delivered ++ sentTo st'.batch.endpoint _ = _
    rw [sentTo_append, ← List.append_assoc]
    cases sent <;> rfl
  · exact List.append_ne_nil_of_right_ne_nil _ (List.cons_ne_nil _ _)
  · rcases List.mem_append.mp hb with hb | hb
    · exact .inl (hmem b hb)
    · exact .inr (List.mem_singleton.mp hb ▸ rfl)

/-- The spans of a push are not in the line. -/
theorem foldl_add_spec (spans : List GenericSpan) (h : st.Fits) :
    (spans.foldl (fun st s => (otlpBatchAdd c false s st).2) st).Fits ∧
      (spans.foldl (fun st s => (otlpBatchAdd c false s st).2) st).line = st.line := by
  induction spans generalizing st with
  | nil => exact ⟨h, rfl⟩
  | cons s spans ih =>
      obtain ⟨hfits, hline, -⟩ := otlpBatchAdd_spec hbuild false s h
      obtain ⟨hfits', hline'⟩ := ih hfits
      exact ⟨hfits', hline'.trans (hline.trans (List.append_nil _))⟩

/-- **A push forgets what was buffered.** -/
theorem otlpPush_spec (endpoint : String) (env : Env) (spans : List GenericSpan) (st : Sender) :
    (otlpPush c endpoint env spans st).delivered = st.delivered ∧
      (otlpPush c endpoint env spans st).batch.spans = [] ∧
      (otlpPush c endpoint env spans st).Fits := by
  have hbegin : (otlpBatchBegin endpoint env st).line = st.delivered := List.append_nil _
  obtain ⟨hfits, hline⟩ := foldl_add_spec hbuild spans (otlpBatchBegin_fits endpoint env st)
  obtain ⟨hflush, hempty, -, hmax⟩ := otlpBatchFlush_spec hbuild
    (spans.foldl (fun st s => (otlpBatchAdd c false s st).2) (otlpBatchBegin endpoint env st))
  refine ⟨hflush.trans (hline.trans hbegin), hempty, ?_⟩
  unfold otlpPush
  refine ⟨?_, ?_, ?_⟩ <;> dsimp only <;> rw [hmax]
  · exact hfits.pos
  · exact hfits.le
  · rw [hempty]
    exact Nat.zero_le _

end

/-! ### Runs -/

/-- A call of the exporter. -/
inductive Op where
  | toSpan (s : SlotSpan)
  | send (handle : Int) (endpoint : Option String) (env : Env)
  | flush
  | push (endpoint : String) (env : Env) (spans : List GenericSpan)

/-- The state after a call. -/
def Op.run (c : Collector) (st : Exporter) : Op → Exporter
  | .toSpan s => recToSpan s st
  | .send handle endpoint env => (spnlOtlpSpanSend c handle endpoint env st).2
  | .flush => (spnlOtlpSpanFlush c st).2
  | .push endpoint env spans => { st with sender := otlpPush c endpoint env spans st.sender }

/-- The span that a call accepts, with the endpoint it was given with: a send that returns 1. -/
def Op.accepts (c : Collector) (st : Exporter) : Op → List (SlotSpan × String)
  | .send handle endpoint env =>
      if (spnlOtlpSpanSend c handle endpoint env st).1 = 1 then
        (st.request handle endpoint).toList
      else []
  | _ => []

/-- The state after a run. -/
def runAll (c : Collector) (st : Exporter) (ops : List Op) : Exporter := ops.foldl (Op.run c) st

/-- The spans that a run accepts. -/
def accepted (c : Collector) : Exporter → List Op → List (SlotSpan × String)
  | _, []         => []
  | st, op :: ops => op.accepts c st ++ accepted c (op.run c st) ops

/-- A span as an attempt to its endpoint contains it: a missing name is an empty one. -/
def stored (a : SlotSpan × String) : GenericSpan × Option String :=
  ({ a.1.span with name := some (a.1.span.name.getD "") }, some a.2)

/-- **The condition on a call**: a send into an open batch has the batch's endpoint, and a push
finds no open batch. -/
def Op.Calm (st : Exporter) : Op → Prop
  | .send handle endpoint _ =>
      st.batchOpen = true → ∀ s ep, st.request handle endpoint = some (s, ep) →
        st.sender.batch.endpoint = some ep
  | .push .. => st.batchOpen = false
  | .toSpan _ | .flush => True

/-- Every call of a run meets the condition. -/
def Calm (c : Collector) : Exporter → List Op → Prop
  | _, []         => True
  | st, op :: ops => op.Calm st ∧ Calm c (op.run c st) ops

/-- What holds of the batch between calls. -/
structure Exporter.Inv (st : Exporter) : Prop where
  closed : st.batchOpen = false → st.sender.batch.spans = []
  fits : st.batchOpen = true → st.sender.Fits
  sent : ∀ b ∈ st.sender.batch.spans, b.sent = true

/-- An open batch holds a span. -/
def Exporter.Busy (st : Exporter) : Prop := st.batchOpen = true → st.sender.batch.spans ≠ []

variable {st : Exporter} {c : Collector} {handle : Int} {endpoint : Option String} {env : Env}
  {s : SlotSpan} {ep : String}

theorem Exporter.Inv.line_of_closed (h : st.Inv) (hclosed : st.batchOpen = false) :
    st.sender.line = st.sender.delivered := by
  rw [Sender.line, h.closed hclosed]
  exact List.append_nil _

/-- A line without buffered spans is shorter. -/
theorem Exporter.Inv.length_line (h : st.Inv) :
    st.sender.line.length = st.sender.delivered.length + st.sender.batch.spans.length := by
  rw [Sender.line, List.length_append, sentTo, List.length_map, List.filter_eq_self.mpr h.sent]

theorem Op.accepts_send (h : st.request handle endpoint = some (s, ep)) :
    (Op.send handle endpoint env).accepts c st = [(s, ep)] := by
  rw [Op.accepts, spnlOtlpSpanSend, h]
  rfl

theorem Op.accepts_none (h : st.request handle endpoint = none) :
    (Op.send handle endpoint env).accepts c st = [] := by
  rw [Op.accepts, h]
  exact ite_self []

section

variable {acc : List (GenericSpan × Option String)}
  (hbuild : ∀ r spans, (c.build r spans).isSome)

include hbuild

/-- **A send puts its span at the end of the line**, with the endpoint of the batch. -/
theorem send_spec (h : st.Inv) (hreq : st.request handle endpoint = some (s, ep)) :
    ((Op.send handle endpoint env).run c st).Inv ∧
      ((Op.send handle endpoint env).run c st).Busy ∧
      ((Op.send handle endpoint env).run c st).sender.line =
        st.sender.line ++
          [(s.span.copied, if st.batchOpen then st.sender.batch.endpoint else some ep)] := by
  rw [Op.run, spnlOtlpSpanSend, hreq]
  dsimp only
  by_cases hopen : st.batchOpen = true
  · rw [if_pos hopen, if_pos hopen]
    obtain ⟨hfits, hline, -, hne, hmem⟩ := otlpBatchAdd_spec hbuild true s.span (h.fits hopen)
    exact ⟨⟨fun hc => absurd (hopen.symm.trans hc) Bool.noConfusion, fun _ => hfits,
      fun b hb => (hmem b hb).elim (h.sent b) id⟩, fun _ => hne, hline⟩
  · rw [if_neg hopen, if_neg hopen]
    obtain ⟨hfits, hline, -, hne, hmem⟩ := otlpBatchAdd_spec hbuild true s.span
      (otlpBatchBegin_fits ep env st.sender)
    refine ⟨⟨fun hc => absurd hc Bool.noConfusion, fun _ => hfits,
      fun b hb => (hmem b hb).elim (fun hb => absurd hb List.not_mem_nil) id⟩, fun _ => hne, ?_⟩
    have hbegin : (otlpBatchBegin ep env st.sender).line = st.sender.line :=
      (List.append_nil _).trans (h.line_of_closed (Bool.not_eq_true _ ▸ hopen)).symm
    rw [← hbegin]
    exact hline

/-- A flush changes nothing in the line and leaves the batch closed. -/
theorem flush_spec (h : st.Inv) :
    (Op.flush.run c st).Inv ∧ (Op.flush.run c st).batchOpen = false ∧
      (Op.flush.run c st).sender.line = st.sender.line := by
  rw [Op.run, spnlOtlpSpanFlush]
  cases hopen : st.batchOpen with
  | false => exact ⟨h, hopen, rfl⟩
  | true =>
      obtain ⟨hline, hempty, -⟩ := otlpBatchFlush_spec hbuild st.sender
      refine ⟨⟨fun _ => hempty, fun hc => absurd hc Bool.noConfusion, ?_⟩, rfl, ?_⟩
      · show ∀ b ∈ (otlpBatchFlush c st.sender).2.batch.spans, _
        rw [hempty]
        exact fun b hb => absurd hb List.not_mem_nil
      · show (otlpBatchFlush c st.sender).2.line = _
        rw [Sender.line, hempty, hline]
        exact List.append_nil _

/-- A push leaves what was delivered before. -/
theorem push_spec (st : Exporter) (endpoint : String) (env : Env) (spans : List GenericSpan) :
    ((Op.push endpoint env spans).run c st).Inv ∧
      ((Op.push endpoint env spans).run c st).sender.line = st.sender.delivered := by
  obtain ⟨hdelivered, hempty, hfits⟩ := otlpPush_spec hbuild endpoint env spans st.sender
  refine ⟨⟨fun _ => hempty, fun _ => hfits, ?_⟩, ?_⟩
  · show ∀ b ∈ (otlpPush c endpoint env spans st.sender).batch.spans, _
    rw [hempty]
    exact fun b hb => absurd hb List.not_mem_nil
  · show (otlpPush c endpoint env spans st.sender).line = _
    rw [Sender.line, hempty, hdelivered]
    exact List.append_nil _

/-- **What a call can do**: leave the line as it is, put an accepted span at its end, or, for a
push, cut it back to what was delivered. -/
theorem step_cases (h : st.Inv) (op : Op) :
    (op.run c st).Inv ∧
      ((op.accepts c st = [] ∧ (op.run c st).sender.line = st.sender.line ∧ op.Calm st ∧
          (st.Busy → (op.run c st).Busy)) ∨
        (∃ s ep, op.accepts c st = [(s, ep)] ∧
          (op.run c st).sender.line = st.sender.line ++
            [(s.span.copied, if st.batchOpen then st.sender.batch.endpoint else some ep)] ∧
          (op.Calm st ↔ (st.batchOpen = true → st.sender.batch.endpoint = some ep)) ∧
          (op.run c st).Busy) ∨
        (op.accepts c st = [] ∧ (op.run c st).sender.line = st.sender.delivered ∧
          (op.Calm st ↔ st.batchOpen = false) ∧ (op.run c st).batchOpen = st.batchOpen)) := by
  cases op with
  | toSpan s => exact ⟨⟨h.closed, h.fits, h.sent⟩, .inl ⟨rfl, rfl, trivial, id⟩⟩
  | flush =>
      obtain ⟨hinv, hclosed, hline⟩ := flush_spec hbuild h
      exact ⟨hinv, .inl ⟨rfl, hline, trivial, fun _ hopen =>
        absurd (hclosed.symm.trans hopen) Bool.noConfusion⟩⟩
  | push endpoint env spans =>
      obtain ⟨hinv, hline⟩ := push_spec hbuild st endpoint env spans
      exact ⟨hinv, .inr (.inr ⟨rfl, hline, Iff.rfl, rfl⟩)⟩
  | send handle endpoint env =>
      cases hreq : st.request handle endpoint with
      | none =>
          have hrun : (Op.send handle endpoint env).run c st = st := by
            rw [Op.run, spnlOtlpSpanSend, hreq]
          rw [hrun, Op.accepts_none hreq]
          refine ⟨h, .inl ⟨rfl, rfl, fun _ s ep hs => ?_, id⟩⟩
          rw [hreq] at hs
          cases hs
      | some a =>
          obtain ⟨s, ep⟩ := a
          obtain ⟨hinv, hbusy, hline⟩ := send_spec hbuild h hreq
          refine ⟨hinv, .inr (.inl ⟨s, ep, Op.accepts_send hreq, hline, ?_, hbusy⟩)⟩
          refine forall_congr' fun _ => ⟨fun hcalm => hcalm s ep hreq, ?_⟩
          rintro hep s' ep' hreq'
          rw [hreq] at hreq'
          cases hreq'
          exact hep

/-- The line is never longer than what was accepted, and once it differs it stays different. -/
theorem step_back (h : st.Inv) (hle : st.sender.line.length ≤ acc.length) (op : Op) :
    (op.run c st).sender.line.length ≤ (acc ++ (op.accepts c st).map stored).length ∧
      ((op.run c st).sender.line = acc ++ (op.accepts c st).map stored → st.sender.line = acc) := by
  obtain ⟨-, ⟨haccepts, hline, -⟩ | ⟨s, ep, haccepts, hline, -⟩ | ⟨haccepts, hline, -⟩⟩ :=
    step_cases hbuild h op
  · rw [haccepts, hline, List.map_nil, List.append_nil]
    exact ⟨hle, id⟩
  · rw [haccepts, hline, List.map_cons, List.map_nil]
    refine ⟨by simpa using hle, fun heq => (List.append_inj' heq rfl).1⟩
  · rw [haccepts, hline, List.map_nil, List.append_nil]
    have hlen := h.length_line
    refine ⟨by omega, fun heq => ?_⟩
    have hempty : st.sender.batch.spans = [] := by
      rw [← List.length_eq_zero_iff, ← Nat.le_zero]
      rw [heq] at hlen
      omega
    rw [← heq, Sender.line, hempty]
    exact List.append_nil _

/-- **A call keeps the line exact if and only if it meets the condition.** -/
theorem step_calm (h : st.Inv) (hbusy : st.Busy) (hgood : st.sender.line = acc)
    (op : Op) :
    ((op.run c st).sender.line = acc ++ (op.accepts c st).map stored ↔ op.Calm st) ∧
      (op.Calm st → (op.run c st).Busy) := by
  obtain ⟨-, ⟨haccepts, hline, hcalm, hbusy'⟩ | ⟨s, ep, haccepts, hline, hcalm, hbusy'⟩ |
    ⟨haccepts, hline, hcalm, hopen⟩⟩ := step_cases hbuild h op
  · rw [haccepts, hline, List.map_nil, List.append_nil]
    exact ⟨iff_of_true hgood hcalm, fun _ => hbusy' hbusy⟩
  · refine ⟨?_, fun _ => hbusy'⟩
    rw [haccepts, hline, hgood, List.map_cons, List.map_nil, hcalm, stored, s.copied,
      List.append_cancel_left_eq, List.cons.injEq, Prod.mk.injEq]
    cases st.batchOpen <;> simp
  · rw [haccepts, hline, List.map_nil, List.append_nil, hcalm]
    refine ⟨⟨fun heq => ?_, fun hclosed => ?_⟩, fun hclosed hopen' => ?_⟩
    · -- nothing was buffered, so no batch was open
      rw [← hgood] at heq
      have hlen := h.length_line
      rw [← heq] at hlen
      by_contra hopen'
      exact hbusy (Bool.not_eq_false _ ▸ hopen') (List.length_eq_zero_iff.mp (by omega))
    · rw [← hgood, h.line_of_closed hclosed]
    · rw [hopen, hclosed] at hopen'
      cases hopen'

theorem run_back (ops : List Op) (h : st.Inv)
    (hle : st.sender.line.length ≤ acc.length)
    (hgood : (runAll c st ops).sender.line = acc ++ (accepted c st ops).map stored) :
    st.sender.line = acc := by
  induction ops generalizing st acc with
  | nil => exact hgood.trans (List.append_nil _)
  | cons op ops ih =>
      obtain ⟨hle', hback⟩ := step_back hbuild h hle op
      rw [accepted, List.map_append, ← List.append_assoc] at hgood
      exact hback (ih (step_cases hbuild h op).1 hle' hgood)

theorem run_calm (ops : List Op) (h : st.Inv) (hbusy : st.Busy)
    (hgood : st.sender.line = acc) :
    (runAll c st ops).sender.line = acc ++ (accepted c st ops).map stored ↔ Calm c st ops := by
  induction ops generalizing st acc with
  | nil => exact iff_of_true (hgood.trans (List.append_nil _).symm) trivial
  | cons op ops ih =>
      have hinv := (step_cases hbuild h op).1
      obtain ⟨hiff, hbusy'⟩ := step_calm hbuild h hbusy hgood op
      rw [accepted, List.map_append, ← List.append_assoc, Calm]
      constructor
      · intro hrun
        have hle := (step_back hbuild h (congrArg List.length hgood).le op).1
        have hstep := run_back hbuild ops hinv hle hrun
        have hcalm := hiff.mp hstep
        exact ⟨hcalm, (ih hinv (hbusy' hcalm) hstep).mp hrun⟩
      · rintro ⟨hcalm, hrest⟩
        exact (ih hinv (hbusy' hcalm) (hiff.mpr hcalm)).mpr hrest

theorem run_inv (ops : List Op) (h : st.Inv) : (runAll c st ops).Inv := by
  induction ops generalizing st with
  | nil => exact h
  | cons op ops ih => exact ih (step_cases hbuild h op).1

end

/-- The exporter at the start of the program. -/
def Exporter.start : Exporter where
  sender := ⟨⟨[], 0, 0, 0, none, ⟨"", "", ""⟩⟩, []⟩
  slots := fun _ => ⟨.zero, by decide, by decide⟩
  slot := 0
  batchOpen := false
  sent := 0

/-- **What is sent is delivered exactly in calm runs**: if bodies can be built, the spans of sends
in the attempts of a run that ends with a flush are those the sends accepted, each once, in order
and at its own endpoint, exactly if every call meets the condition. -/
theorem delivered_iff (c : Collector) (hbuild : ∀ r spans, (c.build r spans).isSome)
    (ops : List Op) :
    (runAll c .start (ops ++ [.flush])).sender.delivered = (accepted c .start ops).map stored ↔
      Calm c .start ops := by
  have hstart : Exporter.start.Inv :=
    ⟨fun _ => rfl, fun h => absurd h Bool.noConfusion, fun b hb => absurd hb List.not_mem_nil⟩
  have hbusy : Exporter.start.Busy := fun h => absurd h Bool.noConfusion
  obtain ⟨hinv, hclosed, hline⟩ := flush_spec hbuild (run_inv hbuild ops hstart)
  have hlast : (runAll c .start (ops ++ [.flush])).sender.delivered =
      (runAll c .start ops).sender.line := by
    rw [← hline, hinv.line_of_closed hclosed, runAll, List.foldl_append]
    rfl
  rw [hlast]
  exact run_calm hbuild ops hstart hbusy rfl

/-- A collector that takes everything. -/
def welcoming : Collector := ⟨fun _ _ => some [], fun _ => some 200⟩

/-- `SPNL_OTLP_BATCH_MAX=1`. -/
def unbatched : Env := ⟨some 1, ⟨"svc", "1", "spinel-ebpf"⟩⟩

/-- Two sends, a flush, a push to another endpoint and a send there. -/
def twoCycles : List Op :=
  [.send 1 (some "a") unbatched, .send 2 (some "a") unbatched, .flush,
    .push "b" unbatched [.zero], .send 1 (some "b") unbatched]

theorem delivered_twoCycles :
    (accepted welcoming .start twoCycles).map Prod.snd = ["a", "a", "b"] ∧
      (runAll welcoming .start (twoCycles ++ [.flush])).sender.delivered =
        (accepted welcoming .start twoCycles).map stored := by
  refine ⟨by decide, (delivered_iff welcoming (fun _ _ => rfl) twoCycles).mpr ?_⟩
  refine ⟨fun h => absurd h Bool.noConfusion, fun _ s ep h => ?_, trivial, rfl,
    fun h => absurd h Bool.noConfusion, trivial⟩
  cases h
  rfl

/-- **Spans are lost and misdirected**: a push while a batch is open drops what is buffered, and a
send to a second endpoint goes to the first. -/
theorem push_drops_buffered :
    (accepted welcoming .start [.send 1 (some "a") unbatched, .push "b" unbatched []]).length = 1 ∧
      (runAll welcoming .start [.send 1 (some "a") unbatched, .push "b" unbatched [], .flush]
        ).sender.attempts = [] ∧
      (accepted welcoming .start
        [.send 1 (some "a") unbatched, .send 1 (some "b") unbatched]).map Prod.snd = ["a", "b"] ∧
      (runAll welcoming .start
        [.send 1 (some "a") unbatched, .send 1 (some "b") unbatched, .flush]
        ).sender.attempts.map Attempt.endpoint = [some "a", some "a"] := by
  decide

end SpinelEbpf.Otlp

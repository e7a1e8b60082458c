import SpinelEbpf.Offcpu.Window
import SpinelEbpf.Support.Stopwatch

/-!
# Offcpu — the attribution is exact

In a trace whose clock is positive and increases, in which a thread begins and emits only while it
runs, and in which a thread with a window leaves only while it runs and comes back only while it
does not, the off-CPU time of every emitted record is the time its thread was switched out with a
non-zero state since its window was last stored.  Nothing is asked of the switches of other threads:
the idle threads of all CPUs are thread 0, and they do not alternate.

* `Tracks`: what a stored window says about the events since. The one field `sleepTs` is both the
  time the thread left and the sign that it sleeps; it is zero whenever the thread runs.
* `tracks_account`: a switch keeps it, for the thread that leaves, the one that comes and the rest.
* `tracked_run`: every window of every reachable state tracks the events since it was stored.
* `offcpu_exact`: the theorem about the records.
-/

namespace SpinelEbpf.Offcpu

/-! ### Traces -/

/-- The clock readings of an event, in their order. -/
def Event.readings : Event → List Nat
  | .recvStash _ _ => []
  | .begin _ _ _ _ now => [now.toNat]
  | .account _ _ _ _ now => [now.toNat]
  | .emit _ _ _ _ timestamp now => [timestamp.toNat, now.toNat]

def readings (es : List Event) : List Nat := es.flatMap Event.readings

/-- The clock is positive and strictly increases. -/
def Clocked (es : List Event) : Prop := (0 :: readings es).Pairwise (· < ·)

/-- Which threads run after an event. -/
def advance (running : UInt32 → Bool) : Event → UInt32 → Bool
  | .account prev _ next _ _ => Function.update (Function.update running prev false) next true
  | _ => running

def runningAfter (running : UInt32 → Bool) (es : List Event) : UInt32 → Bool :=
  es.foldl advance running

/-- A thread begins and emits while it runs, and one with a window leaves while it runs and comes
back while it does not. -/
def Allowed (s : State) (running : UInt32 → Bool) : Event → Prop
  | .recvStash _ _ => True
  | .begin tid _ _ _ _ => running tid = true
  | .account prev _ next _ _ => ((s.win.lookup prev).isSome = true → running prev = true) ∧
      ((s.win.lookup next).isSome = true → Function.update running prev false next = false)
  | .emit tid _ _ _ _ _ => running tid = true

instance (s : State) (running : UInt32 → Bool) (e : Event) : Decidable (Allowed s running e) := by
  cases e <;> unfold Allowed <;> infer_instance

/-- Every event is allowed where it happens. -/
def Disciplined (s : State) (running : UInt32 → Bool) : List Event → Prop
  | []      => True
  | e :: es => Allowed s running e ∧ Disciplined (step s e) (advance running e) es

instance Disciplined.decidable (s : State) (running : UInt32 → Bool) :
    (es : List Event) → Decidable (Disciplined s running es)
  | []      => .isTrue trivial
  | e :: es =>
      have := decidable (step s e) (advance running e) es
      inferInstanceAs (Decidable (_ ∧ _))

/-! ### The time a thread is off the CPU of its own accord -/

/-- The thread is switched out with a non-zero state. -/
def Event.goesOff (tid : UInt32) : Event → Bool
  | .account prev state _ _ _ => prev == tid && state != 0
  | _ => false

/-- The thread is switched in. -/
def Event.comesBack (tid : UInt32) : Event → Bool
  | .account _ _ next _ _ => next == tid
  | _ => false

/-- When the event happens. -/
def Event.time : Event → Nat
  | .recvStash _ _ => 0
  | .begin _ _ _ _ now => now.toNat
  | .account _ _ _ _ now => now.toNat
  | .emit _ _ _ _ _ now => now.toNat

/-- The total length of the intervals during which the thread is switched out with a non-zero
state. -/
def offTime (tid : UInt32) (es : List Event) : Nat :=
  Stopwatch.elapsed (Event.goesOff tid) (Event.comesBack tid) Event.time es

/-- The times of the switches out of that kind from which the thread has not come back. -/
def stillOff (tid : UInt32) (es : List Event) : List Nat :=
  Stopwatch.unfinished (Event.goesOff tid) (Event.comesBack tid) Event.time es

/-- Event `b` after `pre` stores the thread's window, and none of the events `mid` after it does. -/
def LastStored (tid : UInt32) (pre : List Event) (b : Event) (mid : List Event) : Prop :=
  stores (run pre) b = some tid ∧
    ∀ m₁ b' m₂, mid = m₁ ++ b' :: m₂ → stores (run (pre ++ b :: m₁)) b' ≠ some tid

/-! ### What a window tracks -/

/-- What a stored window says about all events `es` so far and the events `mid` since it was
stored, for a thread that runs or does not. -/
structure Tracks (tid : UInt32) (running : Bool) (es mid : List Event) (w : Win) : Prop where
  offcpu : w.offcpuNs.toNat = offTime tid mid
  asleep : stillOff tid mid = if w.sleepTs = 0 then [] else [w.sleepTs.toNat]
  awake : running = true → w.sleepTs = 0
  reached : ∃ r ∈ readings es, w.startNs.toNat + w.offcpuNs.toNat ≤ r ∧
    (w.sleepTs ≠ 0 → r = w.sleepTs.toNat)

variable {running : Bool} {w : Win} {es : List Event} {tid : UInt32} {e : Event}

section Snoc

variable {tid : UInt32} {es mid : List Event} {e : Event}

theorem offTime_snoc_back (h : e.comesBack tid = true) :
    offTime tid (mid ++ [e]) = offTime tid mid + ((stillOff tid mid).map (e.time - ·)).sum :=
  Stopwatch.elapsed_snoc_back h mid

theorem stillOff_snoc_back (h : e.comesBack tid = true) : stillOff tid (mid ++ [e]) = [] :=
  Stopwatch.unfinished_snoc_back h mid

theorem offTime_snoc_away (h : e.comesBack tid = false) :
    offTime tid (mid ++ [e]) = offTime tid mid :=
  Stopwatch.elapsed_snoc_away h mid

theorem stillOff_snoc_away (h : e.comesBack tid = false) :
    stillOff tid (mid ++ [e]) = stillOff tid mid ++ if e.goesOff tid then [e.time] else [] :=
  Stopwatch.unfinished_snoc_away h mid

theorem mem_readings_snoc (r : Nat) :
    r ∈ readings (es ++ [e]) ↔ r ∈ readings es ∨ r ∈ e.readings := by
  simp [readings]

/-- An event that neither takes the thread off the CPU of its own accord nor brings it back leaves
its window as it is. -/
theorem Tracks.frame {running' : Bool} (h : Tracks tid running es mid w)
    (hoff : e.goesOff tid = false) (hback : e.comesBack tid = false)
    (hrunning : running' = true → running = true) :
    Tracks tid running' (es ++ [e]) (mid ++ [e]) w := by
  obtain ⟨r, hr, hle, hsleep⟩ := h.reached
  refine ⟨?_, ?_, fun hrun => h.awake (hrunning hrun), r, ?_, hle, hsleep⟩
  · rw [offTime_snoc_away hback, h.offcpu]
  · rw [stillOff_snoc_away hback, h.asleep, hoff]
    simp
  · exact (mem_readings_snoc r).mpr (.inl hr)

end Snoc

/-- A window as it is stored tracks the empty rest. -/
theorem Tracks.init (hoffcpu : w.offcpuNs = 0) (hsleep : w.sleepTs = 0)
    (hstart : w.startNs.toNat ∈ readings es) :
    Tracks tid running es [] w := by
  refine ⟨by rw [hoffcpu]; rfl, by rw [hsleep]; rfl, fun _ => hsleep, _, hstart, ?_, ?_⟩
  · rw [hoffcpu]
    exact Nat.le_refl _
  · exact fun hne => absurd hsleep hne

/-! ### A switch -/

/-- The time a sleeping thread adds when it comes back. -/
theorem toNat_comeBack {now : UInt64} (hsleep : w.sleepTs.toNat < now.toNat)
    (hle : w.offcpuNs.toNat ≤ w.sleepTs.toNat) :
    (w.offcpuNs + (now - w.sleepTs)).toNat =
      w.offcpuNs.toNat + (now.toNat - w.sleepTs.toNat) := by
  have hnow := now.toNat_lt
  have hsub : (now - w.sleepTs).toNat = now.toNat - w.sleepTs.toNat :=
    UInt64.toNat_sub_of_le _ _ (UInt64.le_iff_toNat_le.mpr (Nat.le_of_lt hsleep))
  rw [UInt64.toNat_add, hsub]
  omega

section Account

variable {prev next : UInt32} {state stack : Int} {now : UInt64} {mid : List Event}

/-- The thread comes back from where it left, or from a preemption. -/
theorem Tracks.comeBack (h : Tracks tid running es mid w)
    (hnow : ∀ r ∈ readings es, r < now.toNat) :
    Tracks tid true (es ++ [.account prev state tid stack now])
      (mid ++ [.account prev state tid stack now]) (comeBack now w) := by
  have hback : (Event.account prev state tid stack now).comesBack tid = true := beq_self_eq_true tid
  have hreading : now.toNat ∈ readings (es ++ [.account prev state tid stack now]) :=
    (mem_readings_snoc _).mpr (.inr (List.mem_singleton_self _))
  obtain ⟨r, hr, hle, hsleep⟩ := h.reached
  have hrnow := hnow r hr
  by_cases hzero : w.sleepTs = 0
  · rw [Offcpu.comeBack, if_neg (not_not.mpr hzero)]
    refine ⟨?_, ?_, fun _ => hzero, now.toNat, hreading, by omega, fun hne => absurd hzero hne⟩
    · rw [offTime_snoc_back hback, h.asleep, if_pos hzero, h.offcpu]
      rfl
    · rw [stillOff_snoc_back hback, if_pos hzero]
  · have hrsleep := hsleep hzero
    have hoffcpu : (w.offcpuNs + (now - w.sleepTs)).toNat =
        w.offcpuNs.toNat + (now.toNat - w.sleepTs.toNat) := toNat_comeBack (by omega) (by omega)
    rw [Offcpu.comeBack, if_pos hzero]
    refine ⟨?_, ?_, fun _ => rfl, now.toNat, hreading, ?_, fun hne => absurd rfl hne⟩
    · rw [offTime_snoc_back hback, h.asleep, if_neg hzero, ← h.offcpu]
      exact hoffcpu
    · rw [stillOff_snoc_back hback, if_pos rfl]
    · show w.startNs.toNat + (w.offcpuNs + (now - w.sleepTs)).toNat ≤ now.toNat
      omega

/-- The thread leaves of its own accord and another comes. -/
theorem Tracks.goOff (h : Tracks tid true es mid w) (hstate : state ≠ 0) (hnext : next ≠ tid)
    (hnow : ∀ r ∈ readings es, r < now.toNat) :
    Tracks tid false (es ++ [.account tid state next stack now])
      (mid ++ [.account tid state next stack now]) (goOff now stack w) := by
  have hback : (Event.account tid state next stack now).comesBack tid = false :=
    beq_eq_false_iff_ne.mpr hnext
  have hoff : (Event.account tid state next stack now).goesOff tid = true := by
    simp [Event.goesOff, hstate]
  obtain ⟨r, hr, hle, -⟩ := h.reached
  have hrnow := hnow r hr
  have hne : now ≠ 0 := by
    rintro rfl
    exact absurd hrnow (Nat.not_lt_zero r)
  refine ⟨?_, ?_, fun hrun => absurd hrun Bool.false_ne_true, now.toNat, ?_, ?_, fun _ => rfl⟩
  · rw [offTime_snoc_away hback, ← h.offcpu]
    rfl
  · rw [stillOff_snoc_away hback, h.asleep, if_pos (h.awake rfl), if_pos hoff]
    exact (if_neg hne).symm
  · exact (mem_readings_snoc _).mpr (.inr (List.mem_singleton_self _))
  · show w.startNs.toNat + w.offcpuNs.toNat ≤ now.toNat
    omega

theorem comeBack_goOff {r : Nat} (hzero : w.sleepTs = 0) (hnow : r < now.toNat) :
    Offcpu.comeBack now (Offcpu.goOff now stack w) = { w with waitStack := stack } := by
  have hne : now ≠ 0 := by
    rintro rfl
    exact absurd hnow (Nat.not_lt_zero r)
  rw [Offcpu.comeBack, Offcpu.goOff, if_pos hne]
  simp [hzero]

/-- A switch keeps every window in step with the trace. -/
theorem Tracks.account {running : UInt32 → Bool} (h : Tracks tid (running tid) es mid w)
    (hprev : running tid = true ∨ tid ≠ prev) (hnow : ∀ r ∈ readings es, r < now.toNat) :
    Tracks tid (advance running (.account prev state next stack now) tid)
      (es ++ [.account prev state next stack now]) (mid ++ [.account prev state next stack now])
      (switched tid prev state next stack now w) := by
  by_cases hnext : tid = next
  · subst hnext
    have hrun : advance running (.account prev state tid stack now) tid = true :=
      Function.update_self ..
    rw [hrun]
    by_cases hoff : tid = prev ∧ state ≠ 0
    · -- it leaves and comes back in one switch, and no time passes
      have hzero : w.sleepTs = 0 := h.awake (hprev.resolve_right (not_not.mpr hoff.1))
      have hcome : Tracks tid true (es ++ [.account prev state tid stack now])
          (mid ++ [.account prev state tid stack now]) (Offcpu.comeBack now w) := h.comeBack hnow
      obtain ⟨r, hr, -, -⟩ := h.reached
      rw [Offcpu.comeBack, if_neg (not_not.mpr hzero)] at hcome
      rw [switched, if_pos hoff, if_pos rfl, comeBack_goOff hzero (hnow r hr)]
      exact ⟨hcome.offcpu, hcome.asleep, hcome.awake, hcome.reached⟩
    · rw [switched, if_neg hoff, if_pos rfl]
      exact h.comeBack hnow
  · have hback : (Event.account prev state next stack now).comesBack tid = false :=
      beq_eq_false_iff_ne.mpr fun heq => hnext heq.symm
    have hrun : advance running (.account prev state next stack now) tid =
        Function.update running prev false tid := Function.update_of_ne hnext ..
    rw [switched, if_neg hnext, hrun]
    by_cases hoff : tid = prev ∧ state ≠ 0
    · obtain ⟨rfl, hstate⟩ := hoff
      rw [if_pos ⟨rfl, hstate⟩, Function.update_self]
      rw [hprev.resolve_right (not_not.mpr rfl)] at h
      exact h.goOff hstate (fun heq => hnext heq.symm) hnow
    · rw [if_neg hoff]
      refine h.frame ?_ hback fun hrun' => ?_
      · simp only [Event.goesOff, Bool.and_eq_false_iff, beq_eq_false_iff_ne, bne_eq_false_iff_eq]
        by_contra hne
        push Not at hne
        exact hoff ⟨hne.1.symm, hne.2⟩
      · by_cases htid : tid = prev
        · rw [htid, Function.update_self] at hrun'
          exact absurd hrun' Bool.false_ne_true
        · rwa [Function.update_of_ne htid] at hrun'

end Account

/-! ### The whole trace -/

theorem Clocked.snoc (h : Clocked (es ++ [e])) :
    Clocked es ∧ ∀ t ∈ e.readings, ∀ r ∈ readings es, r < t := by
  unfold Clocked at h
  have hsplit : 0 :: readings (es ++ [e]) = (0 :: readings es) ++ e.readings := by
    simp [readings]
  rw [hsplit, List.pairwise_append] at h
  obtain ⟨hes, -, hlt⟩ := h
  exact ⟨hes, fun t ht r hr => hlt r (List.mem_cons_of_mem _ hr) t ht⟩

theorem Disciplined.snoc {s : State} {running : UInt32 → Bool}
    (h : Disciplined s running (es ++ [e])) :
    Disciplined s running es ∧ Allowed (es.foldl step s) (runningAfter running es) e := by
  induction es generalizing s running with
  | nil => exact ⟨trivial, h.1⟩
  | cons e' es ih =>
      obtain ⟨hes, he⟩ := ih h.2
      exact ⟨⟨h.1, hes⟩, he⟩

theorem LastStored.snoc {pre mid : List Event} {b : Event} (h : LastStored tid pre b mid)
    (hstores : stores (run (pre ++ b :: mid)) e ≠ some tid) :
    LastStored tid pre b (mid ++ [e]) := by
  refine ⟨h.1, fun m₁ b' m₂ heq => ?_⟩
  rcases List.eq_nil_or_concat m₂ with rfl | ⟨m₂, x, rfl⟩
  · obtain ⟨rfl, hb'⟩ := List.append_inj' heq rfl
    cases hb'
    exact hstores
  · have hcons : m₁ ++ b' :: (m₂.concat x) = (m₁ ++ b' :: m₂) ++ [x] := by simp
    rw [hcons] at heq
    exact h.2 m₁ b' m₂ (List.append_inj' heq rfl).1

/-- Every window tracks the events since it was stored. -/
def Tracked (running : UInt32 → Bool) (es : List Event) : Prop :=
  ∀ tid w, (run es).win.lookup tid = some w →
    ∃ pre b mid, es = pre ++ b :: mid ∧ LastStored tid pre b mid ∧
      Tracks tid (runningAfter running es tid) es mid w

/-- A window that a further event does not store, and that tracks the longer trace. -/
theorem tracked_of_kept {running : UInt32 → Bool}
    {w' : Win} (h : Tracked running es) (hw : (run es).win.lookup tid = some w)
    (hstores : stores (run es) e ≠ some tid)
    (htracks : ∀ mid, Tracks tid (runningAfter running es tid) es mid w →
      Tracks tid (runningAfter running (es ++ [e]) tid) (es ++ [e]) (mid ++ [e]) w') :
    ∃ pre b mid, es ++ [e] = pre ++ b :: mid ∧ LastStored tid pre b mid ∧
      Tracks tid (runningAfter running (es ++ [e]) tid) (es ++ [e]) mid w' := by
  obtain ⟨pre, b, mid, heq, hlast, ht⟩ := h tid w hw
  refine ⟨pre, b, mid ++ [e], ?_, hlast.snoc (heq ▸ hstores), htracks mid ht⟩
  rw [heq, List.append_assoc, List.cons_append]

theorem runningAfter_snoc (running : UInt32 → Bool) (es : List Event) (e : Event) :
    runningAfter running (es ++ [e]) = advance (runningAfter running es) e := by
  rw [runningAfter, runningAfter, List.foldl_append]
  rfl

/-- One more event keeps every window in step with the trace. -/
theorem Tracked.snoc {running : UInt32 → Bool} (h : Tracked running es)
    (hnow : ∀ t ∈ e.readings, ∀ r ∈ readings es, r < t)
    (hallowed : Allowed (run es) (runningAfter running es) e) : Tracked running (es ++ [e]) := by
  intro tid w hw
  rw [run_snoc] at hw
  have hrunning := runningAfter_snoc running es e
  cases e with
  | recvStash t buf =>
      refine tracked_of_kept h hw (Option.some_ne_none tid).symm fun mid ht => ?_
      exact ht.frame rfl rfl fun hrun => by rwa [hrunning] at hrun
  | begin t ret req hdrExt now =>
      rcases lookup_begin hw with ⟨hstores, hbegin⟩ | ⟨hstores, hkept⟩
      · obtain ⟨hstart, hoffcpu, hsleep⟩ := beginWin_eq_some hbegin
        refine ⟨es, _, [], rfl, ⟨hstores, fun m₁ b' m₂ heq => ?_⟩, .init hoffcpu hsleep ?_⟩
        · exact absurd heq.symm (by simp)
        · rw [hstart]
          exact (mem_readings_snoc _).mpr (.inr (List.mem_singleton_self _))
      · refine tracked_of_kept h hkept hstores fun mid ht => ?_
        exact ht.frame rfl rfl fun hrun => by rwa [hrunning] at hrun
  | account prev state next stack now =>
      have hlookup := lookup_account (run es) prev state next stack now tid
      rw [step, hlookup] at hw
      obtain ⟨w₀, hw₀, rfl⟩ := Option.map_eq_some_iff.mp hw
      refine tracked_of_kept h hw₀ (Option.some_ne_none tid).symm fun mid ht => ?_
      rw [hrunning]
      refine ht.account ?_ (hnow _ (List.mem_singleton_self _))
      by_cases hprev : tid = prev
      · subst hprev
        exact .inl (hallowed.1 (by rw [hw₀]; rfl))
      · exact .inr hprev
  | emit t resp reserved task timestamp now =>
      refine tracked_of_kept h (lookup_emit hw) (Option.some_ne_none tid).symm fun mid ht => ?_
      exact ht.frame rfl rfl fun hrun => by rwa [hrunning] at hrun

/-- Every window of every state a trace reaches tracks the events since it was stored. -/
theorem tracked_run {running : UInt32 → Bool} (hclock : Clocked es)
    (hdisc : Disciplined .init running es) : Tracked running es := by
  induction es using List.reverseRecOn with
  | nil => exact fun tid w hw => absurd hw (Option.some_ne_none w).symm
  | append_singleton es e ih =>
      obtain ⟨hclock, hnow⟩ := hclock.snoc
      obtain ⟨hdisc, hallowed⟩ := hdisc.snoc
      exact (ih hclock hdisc).snoc hnow hallowed

/-- The record of a window that tracks the trace is exact. -/
theorem Tracks.closing {mid : List Event} (h : Tracks tid running es mid w) (resp : List UInt8)
    (task : Task) (timestamp : UInt64) {now : UInt64} (hnow : ∀ r ∈ readings es, r < now.toNat) :
    (closing w resp task timestamp now).offcpuNs.toNat = offTime tid mid ∧
      (closing w resp task timestamp now).offcpuNs ≤
        (closing w resp task timestamp now).durationNs := by
  obtain ⟨r, hr, hle, -⟩ := h.reached
  have hrnow := hnow r hr
  refine ⟨h.offcpu, UInt64.le_iff_toNat_le.mpr ?_⟩
  show w.offcpuNs.toNat ≤ (now - w.startNs).toNat
  rw [UInt64.toNat_sub_of_le _ _ (UInt64.le_iff_toNat_le.mpr (by omega))]
  omega

/-- **Off-CPU attribution is exact.** In every trace with a positive, strictly increasing clock in
which threads begin and emit only while they run and those with a window leave and come back in
turn, every emitted record carries the total length of the intervals, since its thread's window was last
stored, during which the thread was switched out with a non-zero state, and this is at most the
record's duration. -/
theorem offcpu_exact (running : UInt32 → Bool) (es : List Event) (hclock : Clocked es)
    (hdisc : Disciplined .init running es) :
    ∀ r ∈ (run es).records, ∃ tid pre b mid e post,
      es = pre ++ b :: mid ++ e :: post ∧
      LastStored tid pre b mid ∧
      emits (run (pre ++ b :: mid)) e = some (tid, r) ∧
      r.offcpuNs.toNat = offTime tid mid ∧
      r.offcpuNs ≤ r.durationNs := by
  induction es using List.reverseRecOn with
  | nil => exact fun r hr => absurd hr List.not_mem_nil
  | append_singleton es e ih =>
      obtain ⟨hclock', hnow⟩ := hclock.snoc
      obtain ⟨hdisc', -⟩ := hdisc.snoc
      intro r hr
      rw [records_run_snoc, List.mem_append, Option.mem_toList] at hr
      rcases hr with hr | hr
      · obtain ⟨tid, pre, b, mid, e', post, heq, hrest⟩ := ih hclock' hdisc' r hr
        refine ⟨tid, pre, b, mid, e', post ++ [e], ?_, hrest⟩
        rw [heq, List.append_assoc, List.cons_append]
      · obtain ⟨⟨tid, r'⟩, hemits, rfl⟩ := Option.map_eq_some_iff.mp hr
        obtain ⟨w, resp, task, timestamp, now, rfl, hw, hr'⟩ := emits_eq_some hemits
        obtain ⟨pre, b, mid, rfl, hlast, ht⟩ := tracked_run hclock' hdisc' tid w hw
        refine ⟨tid, pre, b, mid, _, [], rfl, hlast, hemits, ?_⟩
        rw [hr']
        exact ht.closing resp task timestamp (hnow _ (by simp [Event.readings]))

/-- Thread 7 receives a request, sleeps from 20 to 50 (two CPUs go idle), is preempted from 52 to
55 and answers. -/
def sleepTrace : List Event :=
  [.recvStash 7 4096, .begin 7 64 (some (bytes "GET / HTTP/1.1")) [] 10, .account 7 1 0 3 20,
   .account 8 1 0 3 30, .account 0 0 7 0 50, .account 7 0 9 0 52, .account 9 2 7 0 55,
   .emit 7 (some (bytes "HTTP/1.1 200 OK")) true ⟨7, [], 1⟩ 60 61]

theorem offcpu_exact_sleepTrace :
    (run sleepTrace).records.map (fun r => (r.offcpuNs, r.durationNs)) = [(30, 51)] ∧
      ∀ r ∈ (run sleepTrace).records, ∃ tid pre b mid e post,
        sleepTrace = pre ++ b :: mid ++ e :: post ∧
        LastStored tid pre b mid ∧
        emits (run (pre ++ b :: mid)) e = some (tid, r) ∧
        r.offcpuNs.toNat = offTime tid mid ∧
        r.offcpuNs ≤ r.durationNs := by
  refine ⟨by decide, offcpu_exact (fun tid => tid == 7) sleepTrace ?_ (by decide)⟩
  unfold Clocked
  decide

end SpinelEbpf.Offcpu

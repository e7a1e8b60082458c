import SpinelEbpf.Support.Cells
import SpinelEbpf.Otlp.Delivery
import SpinelEbpf.Otlp.RequestTree

/-!
# Otlp — every child leaves the pending buffer once

Over any number of cycles each child that got into a pending buffer is still there, in the order of
arrival, or has left it once: under the first request of a cycle that it matches, with the ids of
that request's span, or as a span of its own in a cycle where it matched none and had waited too
long.  What a cycle adds to the batch are the spans of its requests and of the children that left
(`children_once`).

Each loop is described once, by the children it hands over and the cells it leaves: the carrying
forward (`foldl_carry`), the matching of one request (`adoptAll_spec`), the sweep (`sweep_spec`).
-/

namespace SpinelEbpf.Otlp.RequestTree
open Function Otlp Cells
open scoped List

variable {off : Int64} {ws : List Window}

section Loops

variable {requests : List GenericSpan} {w : Window} {α γ : Type} {src : Source α}
  {emit : Handed α → γ}

/-- The children that are pending. -/
def Pend.pending (p : Pend α) : List α := front p.recs p.n

/-- Child `x` matches request `w`. -/
def Source.inWindow (src : Source α) (w : Window) (x : α) : Prop :=
  otlpChildInWindow (src.pid x) (src.timestamp x) w.pid w.startKtime w.durationNs = true

/-! ### Carrying forward -/

/-- The drained children are added while there is room. -/
theorem foldl_carry (xs : List α) (p : Pend α) (hp : p.n ≤ maxLogs) :
    (xs.foldl Pend.carry p).pending = p.pending ++ xs.take (maxLogs - p.n) ∧
      (xs.foldl Pend.carry p).n ≤ maxLogs := by
  induction xs generalizing p with
  | nil => exact ⟨by rw [List.take_nil, List.append_nil]; rfl, hp⟩
  | cons x xs ih =>
      rw [List.foldl_cons]
      by_cases hroom : p.n < maxLogs
      · have hcarry : p.carry x = { p with recs := update p.recs p.n x, n := p.n + 1 } :=
          if_pos hroom
        obtain ⟨hpending, hn⟩ := ih (p.carry x) (by rw [hcarry]; exact hroom)
        refine ⟨?_, hn⟩
        rw [hpending, hcarry, Pend.pending, front_push, List.append_assoc,
          show maxLogs - p.n = maxLogs - (p.n + 1) + 1 by omega, List.take_succ_cons]
        rfl
      · have hcarry : p.carry x = p := if_neg hroom
        obtain ⟨hpending, hn⟩ := ih (p.carry x) (by rw [hcarry]; exact hp)
        refine ⟨?_, hn⟩
        rw [hpending, hcarry, show maxLogs - p.n = 0 by omega, List.take_zero, List.take_zero]

theorem clear_unused (p : Pend α) : ∀ j < p.clear.n, p.clear.used j = false := by
  intro j hj
  have hlt : j < p.n := hj
  simp [Pend.clear, hlt]

/-! ### Matching -/

/-- A child that request `i` adopts. -/
structure Adopted (src : Source α) (off : Int64) (i : Nat) (w : Window) (parent : GenericSpan)
    (h : Handed α) : Prop where
  under : h.under = some i
  inWindow : src.inWindow w h.child
  span : ∃ seed, h.span = src.fill h.child off true (otlpSpanNewChild .zero parent seed).1

/-- What the loop over the buffer has done for a request after `m` entries. -/
structure AdoptedTo (src : Source α) (emit : Handed α → γ) (off : Int64) (i : Nat) (w : Window)
    (parent : GenericSpan) (m : Nat) (p₀ p : Pend α) (work₀ work : Work γ)
    (hs : List (Handed α)) : Prop where
  recs : p.recs = p₀.recs
  n : p.n = p₀.n
  out : work.out = work₀.out ++ hs.map emit
  marks : (marked p.used p.recs p.n).Perm (hs.map Handed.child ++ marked p₀.used p.recs p.n)
  adopted : ∀ h ∈ hs, Adopted src off i w parent h ∧
    ∃ j < p.n, p₀.used j = false ∧ p.recs j = h.child
  mono : ∀ j, p.used j = false → p₀.used j = false
  rest : ∀ j < m, p.used j = false → ¬ src.inWindow w (p.recs j)

section Adopt

variable {i : Nat} {parent : GenericSpan} {p₀ p : Pend α} {work₀ work : Work γ}

/-- What is handed over for entry `j`. -/
def Pend.nested (src : Source α) (off : Int64) (i : Nat) (parent : GenericSpan) (p : Pend α)
    (seed : UInt64) (j : Nat) : Handed α :=
  ⟨p.recs j, some i, src.fill (p.recs j) off true (otlpSpanNewChild .zero parent seed).1⟩

theorem adopt_pass {j : Nat} (h : p.used j = false → ¬ src.inWindow w (p.recs j)) :
    Pend.adopt src emit off i w parent (p, work) j = (p, work) := by
  unfold Pend.adopt
  dsimp only
  cases hused : p.used j with
  | true => rfl
  | false =>
      have hno : otlpChildInWindow (src.pid (p.recs j)) (src.timestamp (p.recs j)) w.pid
          w.startKtime w.durationNs = false := Bool.not_eq_true _ ▸ h hused
      rw [if_neg Bool.false_ne_true, hno]
      rfl

theorem adopt_take {j : Nat} (hused : p.used j = false) (hin : src.inWindow w (p.recs j)) :
    Pend.adopt src emit off i w parent (p, work) j =
      ({ p with used := update p.used j true },
        ⟨(otlpSpanNewChild .zero parent work.seed).2,
          work.out ++ [emit (p.nested src off i parent work.seed j)]⟩) := by
  unfold Pend.adopt
  dsimp only
  rw [hused, if_neg Bool.false_ne_true, if_neg (by
    rw [show otlpChildInWindow _ _ _ _ _ = true from hin]
    exact Bool.false_ne_true)]
  rfl

namespace AdoptedTo

variable {m : Nat} {hs : List (Handed α)}

theorem pass (h : AdoptedTo src emit off i w parent m p₀ p work₀ work hs)
    (hno : p.used m = false → ¬ src.inWindow w (p.recs m)) :
    AdoptedTo src emit off i w parent (m + 1) p₀ p work₀ work hs := by
  refine { h with rest := fun j hj hfree => ?_ }
  rcases Nat.lt_succ_iff_lt_or_eq.mp hj with hj | rfl
  · exact h.rest j hj hfree
  · exact hno hfree

theorem take (h : AdoptedTo src emit off i w parent m p₀ p work₀ work hs) (hm : m < p.n)
    (hused : p.used m = false) (hin : src.inWindow w (p.recs m)) :
    AdoptedTo src emit off i w parent (m + 1) p₀ { p with used := update p.used m true }
      work₀ ⟨(otlpSpanNewChild .zero parent work.seed).2,
        work.out ++ [emit (p.nested src off i parent work.seed m)]⟩
      (hs ++ [p.nested src off i parent work.seed m]) := by
  have hmono : ∀ j, update p.used m true j = false → j ≠ m ∧ p.used j = false := by
    intro j hj
    by_cases hjm : j = m
    · subst hjm
      rw [update_self] at hj
      cases hj
    · exact ⟨hjm, by rwa [update_of_ne hjm] at hj⟩
  refine ⟨h.recs, h.n, ?_, ?_, fun h' hh' => ?_, fun j hj => h.mono j (hmono j hj).2,
    fun j hj hfree => ?_⟩
  · rw [List.map_append, ← List.append_assoc, ← h.out]
    rfl
  · refine (marked_update_perm hm hused).trans ?_
    rw [List.map_append, List.append_assoc]
    exact (List.Perm.cons _ h.marks).trans List.perm_middle.symm
  · rcases List.mem_append.mp hh' with hh' | hh'
    · exact h.adopted h' hh'
    · obtain rfl := List.mem_singleton.mp hh'
      exact ⟨⟨rfl, hin, _, rfl⟩, m, hm, h.mono m hused, rfl⟩
  · obtain ⟨hjm, hfree⟩ := hmono j hfree
    exact h.rest j (by omega) hfree

end AdoptedTo

/-- **The children of one request**: those pending children that match it and are not marked are
handed over and marked. -/
theorem adoptAll_spec (src : Source α) (emit : Handed α → γ) (off : Int64) (i : Nat) (w : Window)
    (parent : GenericSpan) (p₀ : Pend α) (work₀ : Work γ) :
    ∃ p work hs, p₀.adoptAll src emit off i w parent work₀ = (p, work) ∧
      AdoptedTo src emit off i w parent p₀.n p₀ p work₀ work hs := by
  suffices h : ∀ m ≤ p₀.n, ∃ p work hs,
      (List.range m).foldl (Pend.adopt src emit off i w parent) (p₀, work₀) = (p, work) ∧
        AdoptedTo src emit off i w parent m p₀ p work₀ work hs from h p₀.n le_rfl
  intro m hm
  induction m with
  | zero =>
      exact ⟨p₀, work₀, [], rfl, rfl, rfl, (List.append_nil _).symm, .refl _,
        fun h hh => absurd hh List.not_mem_nil, fun _ => id,
        fun j hj => absurd hj (Nat.not_lt_zero j)⟩
  | succ m ih =>
      obtain ⟨p, work, hs, hfold, h⟩ := ih (Nat.le_of_succ_le hm)
      rw [List.range_succ, List.foldl_append, hfold, List.foldl_cons, List.foldl_nil]
      by_cases hno : p.used m = false → ¬ src.inWindow w (p.recs m)
      · exact ⟨p, work, hs, adopt_pass hno, h.pass hno⟩
      · push Not at hno
        exact ⟨_, _, _, adopt_take hno.1 hno.2, h.take (h.n ▸ hm) hno.1 hno.2⟩

end Adopt

/-! ### The sweep -/

section Sweep

variable {now ttl : UInt64} {p₀ p : Pend α} {k : Nat} {work₀ work : Work γ}

/-- Entry `j` is not marked and its child has waited too long. -/
def Pend.gone (src : Source α) (now ttl : UInt64) (p : Pend α) (j : Nat) : Bool :=
  !p.used j && expired now ttl (src.timestamp (p.recs j))

/-- Entry `j` is not marked and its child may wait. -/
def Pend.waits (src : Source α) (now ttl : UInt64) (p : Pend α) (j : Nat) : Bool :=
  !p.used j && !expired now ttl (src.timestamp (p.recs j))

/-- A child that becomes a span of its own. -/
structure Standalone (src : Source α) (off : Int64) (now ttl : UInt64) (h : Handed α) : Prop where
  under : h.under = none
  expired : expired now ttl (src.timestamp h.child) = true
  span : ∃ seed, h.span = src.fill h.child off false (otlpSpanNewRoot .zero seed).1

/-- What the sweep has done after `m` entries. -/
structure SweptTo (src : Source α) (emit : Handed α → γ) (off : Int64) (now ttl : UInt64) (m : Nat)
    (p₀ p : Pend α) (k : Nat) (work₀ work : Work γ) (hs : List (Handed α)) : Prop where
  used : p.used = p₀.used
  kept : Compacted (p₀.waits src now ttl) p₀.recs p.recs m k
  out : work.out = work₀.out ++ hs.map emit
  gone : hs.map Handed.child = marked (p₀.gone src now ttl) p₀.recs m
  standalone : ∀ h ∈ hs, Standalone src off now ttl h

namespace SweptTo

variable {m : Nat} {hs : List (Handed α)}

/-- One entry of the sweep. -/
theorem step (h : SweptTo src emit off now ttl m p₀ p k work₀ work hs) :
    ∃ p' k' work' hs', Pend.sweepOne src emit off now ttl (p, k, work) m = (p', k', work') ∧
      SweptTo src emit off now ttl (m + 1) p₀ p' k' work₀ work' hs' := by
  have hread : p.recs m = p₀.recs m := h.kept.unread m le_rfl
  unfold Pend.sweepOne
  dsimp only
  rw [h.used]
  cases hused : p₀.used m with
  | true =>
      refine ⟨p, k, work, hs, rfl, h.used, h.kept.skip ?_, h.out, ?_, h.standalone⟩
      · rw [Pend.waits, hused]
        rfl
      · rw [marked_succ, h.gone, Pend.gone, hused]
        exact (List.append_nil _).symm
  | false =>
      rw [if_neg Bool.false_ne_true, hread]
      cases hexp : expired now ttl (src.timestamp (p₀.recs m)) with
      | true =>
          refine ⟨p, k, _, hs ++ [⟨p₀.recs m, none, src.fill (p₀.recs m) off false
            (otlpSpanNewRoot .zero work.seed).1⟩], rfl, h.used, h.kept.skip ?_, ?_, ?_, ?_⟩
          · rw [Pend.waits, hexp]
            exact Bool.and_false _
          · rw [List.map_append, ← List.append_assoc, ← h.out]
            rfl
          · rw [marked_succ, List.map_append, h.gone, Pend.gone, hused, hexp]
            rfl
          · intro h' hh'
            rcases List.mem_append.mp hh' with hh' | hh'
            · exact h.standalone h' hh'
            · obtain rfl := List.mem_singleton.mp hh'
              exact ⟨rfl, hexp, _, rfl⟩
      | false =>
          have hwaits : p₀.waits src now ttl m = true := by rw [Pend.waits, hused, hexp]; rfl
          refine ⟨_, k + 1, work, hs, if_neg Bool.false_ne_true, rfl, ?_, h.out, ?_,
            h.standalone⟩
          · rw [← hread]
            exact h.kept.move hwaits
          · rw [marked_succ, h.gone, Pend.gone, hused, hexp]
            exact (List.append_nil _).symm

end SweptTo

/-- **The sweep**: marked children go, those that waited too long are handed over in order, and the
others are what is pending, in order. -/
theorem sweep_spec (src : Source α) (emit : Handed α → γ) (off : Int64) (now ttl : UInt64)
    (p₀ : Pend α) (work₀ : Work γ) :
    ∃ hs : List (Handed α), (p₀.sweep src emit off now ttl work₀).2.out = work₀.out ++ hs.map emit ∧
      (p₀.sweep src emit off now ttl work₀).1.pending =
        marked (p₀.waits src now ttl) p₀.recs p₀.n ∧
      (p₀.sweep src emit off now ttl work₀).1.n ≤ p₀.n ∧
      hs.map Handed.child = marked (p₀.gone src now ttl) p₀.recs p₀.n ∧
      ∀ h ∈ hs, Standalone src off now ttl h := by
  have hrun : ∀ m, ∃ p k work hs,
      (List.range m).foldl (Pend.sweepOne src emit off now ttl) (p₀, 0, work₀) = (p, k, work) ∧
        SweptTo src emit off now ttl m p₀ p k work₀ work hs := by
    intro m
    induction m with
    | zero =>
        exact ⟨p₀, 0, work₀, [], rfl, rfl, .start _ _, (List.append_nil _).symm, rfl,
          fun h hh => absurd hh List.not_mem_nil⟩
    | succ m ih =>
        obtain ⟨p, k, work, hs, hfold, h⟩ := ih
        rw [List.range_succ, List.foldl_append, hfold, List.foldl_cons, List.foldl_nil]
        exact h.step
  obtain ⟨p, k, work, hs, hfold, h⟩ := hrun p₀.n
  unfold Pend.sweep
  rw [hfold]
  exact ⟨hs, h.out, h.kept.kept, h.kept.le, h.gone, h.standalone⟩

end Sweep

/-! ### All requests of a cycle -/

/-- A child that went to request `i` of `ws`, the first that it matches; `requests` are the spans of
the requests. -/
structure Nested (src : Source α) (off : Int64) (ws : List Window) (requests : List GenericSpan)
    (i : Nat) (w : Window) (h : Handed α) : Prop where
  under : h.under = some i
  window : ws[i]? = some w
  inWindow : src.inWindow w h.child
  first : ∀ k < i, ∀ w', ws[k]? = some w' → ¬ src.inWindow w' h.child
  span : ∃ parent seed, requests[i]? = some parent ∧
    h.span = src.fill h.child off true (otlpSpanNewChild .zero parent seed).1

theorem Nested.append {i : Nat} {h : Handed α} (hn : Nested src off ws requests i w h) (w' : Window)
    (request : GenericSpan) : Nested src off (ws ++ [w']) (requests ++ [request]) i w h := by
  obtain ⟨hlt, -⟩ := List.getElem?_eq_some_iff.mp hn.window
  obtain ⟨parent, seed, hparent, hspan⟩ := hn.span
  refine { hn with window := ?_, first := fun k hk v hv => ?_, span := ⟨parent, seed, ?_, hspan⟩ }
  · rw [List.getElem?_append_left hlt]
    exact hn.window
  · rw [List.getElem?_append_left (hk.trans hlt)] at hv
    exact hn.first k hk v hv
  · rw [List.getElem?_append_left (List.getElem?_eq_some_iff.mp hparent).1]
    exact hparent

/-- What the loop over the requests has done after `ws`. -/
structure Matched (src : Source α) (off : Int64) (ws : List Window) (requests : List GenericSpan)
    (p₀ p : Pend α) (hs : List (Handed α)) : Prop where
  recs : p.recs = p₀.recs
  n : p.n = p₀.n
  marks : (marked p.used p.recs p.n).Perm (hs.map Handed.child)
  nested : ∀ h ∈ hs, ∃ i w, Nested src off ws requests i w h
  rest : ∀ j < p.n, p.used j = false → ∀ w ∈ ws, ¬ src.inWindow w (p.recs j)

theorem Matched.start (src : Source α) (off : Int64) (p : Pend α) :
    Matched src off [] [] p.clear p.clear [] := by
  refine ⟨rfl, rfl, ?_, fun h hh => absurd hh List.not_mem_nil,
    fun _ _ _ w hw => absurd hw List.not_mem_nil⟩
  have hnone : marked p.clear.used p.clear.recs p.clear.n = [] := by
    refine List.eq_nil_iff_forall_not_mem.mpr fun x hx => ?_
    obtain ⟨j, hj, hused, -⟩ := mem_marked.mp hx
    rw [clear_unused p j hj] at hused
    cases hused
  rw [hnone]
  exact .nil

/-- One more request. -/
theorem Matched.step {parent : GenericSpan} {p₀ p p' : Pend α} {hs hs' : List (Handed α)}
    {work work' : Work γ} (h : Matched src off ws requests p₀ p hs)
    (hlen : ws.length = requests.length)
    (ha : AdoptedTo src emit off ws.length w parent p.n p p' work work' hs') :
    Matched src off (ws ++ [w]) (requests ++ [parent]) p₀ p' (hs ++ hs') := by
  refine ⟨ha.recs.trans h.recs, ha.n.trans h.n, ?_, fun h' hh' => ?_, fun j hj hfree w' hw' => ?_⟩
  · have hold : (marked p.used p'.recs p'.n).Perm (hs.map Handed.child) := by
      rw [ha.recs, ha.n]
      exact h.marks
    rw [List.map_append]
    exact (ha.marks.trans (hold.append_left _)).trans List.perm_append_comm
  · rcases List.mem_append.mp hh' with hh' | hh'
    · obtain ⟨i, v, hn⟩ := h.nested h' hh'
      exact ⟨i, v, hn.append w parent⟩
    · obtain ⟨⟨hunder, hin, seed, hspan⟩, j, hj, hfree, hchild⟩ := ha.adopted h' hh'
      refine ⟨ws.length, w, hunder, List.getElem?_concat_length, hin, fun k hk v hv => ?_,
        parent, seed, hlen ▸ List.getElem?_concat_length, hspan⟩
      rw [List.getElem?_append_left hk] at hv
      rw [← hchild, ha.recs]
      exact h.rest j (ha.n ▸ hj) hfree v (List.mem_of_getElem? hv)
  · rcases List.mem_append.mp hw' with hw' | hw'
    · rw [ha.recs]
      exact h.rest j (ha.n ▸ hj) (ha.mono j hfree) w' hw'
    · obtain rfl := List.mem_singleton.mp hw'
      exact ha.rest j (ha.n ▸ hj) hfree

/-! ### A cycle -/

/-- A cycle as one kind of children sees it: its requests with their spans, and clocks, the children
that were pending, those that were drained, and those that left the buffer. -/
structure Turn (α : Type) where
  windows : List Window
  requests : List GenericSpan
  off : Int64
  now : UInt64
  ttl : UInt64
  held : List α
  arrived : List α
  handed : List (Handed α)

/-- The drained children that get into the buffer. -/
def Turn.entered (u : Turn α) : List α := u.arrived.take (maxLogs - u.held.length)

/-- The span `s` is a child of `parent`, which is in the same trace. -/
def ChildOf (s parent : GenericSpan) : Prop :=
  s.hasParent = true ∧ s.parentSpanId = parent.spanId ∧ s.traceId = parent.traceId

/-- **Why a child leaves the buffer**: it goes to the first request that it matches, and its span is
a child of the request's, or it matches none and has waited too long. -/
def Turn.Right (src : Source α) (u : Turn α) (h : Handed α) : Prop :=
  (∃ i w parent, Nested src u.off u.windows u.requests i w h ∧ u.requests[i]? = some parent ∧
    ∀ s ∈ h.span, ChildOf s parent) ∨
  (Standalone src u.off u.now u.ttl h ∧ (∀ s ∈ h.span, s.hasParent = false) ∧
    ∀ w ∈ u.windows, ¬ src.inWindow w h.child)

theorem Nested.childOf {i : Nat} {h : Handed α} (hn : Nested src off ws requests i w h) :
    ∃ parent, requests[i]? = some parent ∧ ∀ s ∈ h.span, ChildOf s parent := by
  obtain ⟨parent, seed, hparent, hspan⟩ := hn.span
  refine ⟨parent, hparent, fun s hs => ?_⟩
  have hids := src.fill_ids _ _ _ _ s (hspan.symm.trans hs)
  simp only [GenericSpan.ids, otlpSpanNewChild, Prod.mk.injEq] at hids
  exact ⟨hids.2.2.2, hids.2.2.1, hids.1⟩

theorem Standalone.root {now ttl : UInt64} {h : Handed α} (ha : Standalone src off now ttl h) :
    ∀ s ∈ h.span, s.hasParent = false := by
  obtain ⟨seed, hspan⟩ := ha.span
  intro s hs
  have hids := src.fill_ids _ _ _ _ s (hspan.symm.trans hs)
  simp only [GenericSpan.ids, Prod.mk.injEq] at hids
  exact hids.2.2.2

/-- What a cycle leaves pending. -/
structure Turn.Leaves (src : Source α) (u : Turn α) (pending : List α) : Prop where
  once : (u.held ++ u.entered).Perm (pending ++ u.handed.map Handed.child)
  order : pending.Sublist (u.held ++ u.entered)
  right : ∀ h ∈ u.handed, u.Right src h
  le : pending.length ≤ maxLogs

/-- The unmarked entries: those that are gone and those that wait. -/
theorem unmarked_perm (src : Source α) (now ttl : UInt64) (p : Pend α) :
    (marked (p.gone src now ttl) p.recs p.n ++ marked (p.waits src now ttl) p.recs p.n).Perm
      (marked (fun j => !p.used j) p.recs p.n) :=
  marked_perm_split _ _

/-- **A cycle accounts for every child.** -/
theorem leaves_of_loops {now ttl : UInt64} {p p₂ p₃ : Pend α} {arrived : List α}
    {hs hs' : List (Handed α)} (hp : p.n ≤ maxLogs)
    (hm : Matched src off ws requests ((arrived.take maxLogs).foldl Pend.carry p).clear p₂ hs)
    (hpending : p₃.pending = marked (p₂.waits src now ttl) p₂.recs p₂.n) (hn : p₃.n ≤ p₂.n)
    (hgone : hs'.map Handed.child = marked (p₂.gone src now ttl) p₂.recs p₂.n)
    (halone : ∀ h ∈ hs', Standalone src off now ttl h) :
    Turn.Leaves src ⟨ws, requests, off, now, ttl, p.pending, arrived, hs ++ hs'⟩ p₃.pending := by
  have hlen : p.pending.length = p.n := length_front
  obtain ⟨hcarry, hle⟩ := foldl_carry (arrived.take maxLogs) p hp
  have hbuffer : front p₂.recs p₂.n = p.pending ++ arrived.take (maxLogs - p.pending.length) := by
    rw [hm.recs, hm.n, hlen]
    refine hcarry.trans ?_
    rw [List.take_take, min_eq_left (Nat.sub_le _ _)]
  refine ⟨?_, ?_, ?_, ?_⟩
  · show (p.pending ++ arrived.take (maxLogs - p.pending.length)).Perm _
    rw [← hbuffer, hpending, List.map_append, hgone]
    calc front p₂.recs p₂.n
      _ ~ marked p₂.used p₂.recs p₂.n ++ marked (fun j => !p₂.used j) p₂.recs p₂.n :=
          (marked_perm_front _).symm
      _ ~ hs.map Handed.child ++ (marked (p₂.gone src now ttl) p₂.recs p₂.n ++
            marked (p₂.waits src now ttl) p₂.recs p₂.n) :=
          hm.marks.append (unmarked_perm src now ttl p₂).symm
      _ ~ marked (p₂.waits src now ttl) p₂.recs p₂.n ++ (hs.map Handed.child ++
            marked (p₂.gone src now ttl) p₂.recs p₂.n) := by
          rw [← List.append_assoc]
          exact List.perm_append_comm
  · show p₃.pending.Sublist (p.pending ++ arrived.take (maxLogs - p.pending.length))
    rw [← hbuffer, hpending]
    exact marked_sublist _
  · intro h hh
    rcases List.mem_append.mp hh with hh | hh
    · obtain ⟨i, w, hn⟩ := hm.nested h hh
      obtain ⟨parent, hparent, hchild⟩ := hn.childOf
      exact .inl ⟨i, w, parent, hn, hparent, hchild⟩
    · refine .inr ⟨halone h hh, (halone h hh).root, ?_⟩
      have hmem : h.child ∈ marked (p₂.gone src now ttl) p₂.recs p₂.n :=
        hgone ▸ List.mem_map_of_mem hh
      obtain ⟨j, hj, hj', hchild⟩ := mem_marked.mp hmem
      rw [← hchild]
      exact hm.rest j hj (by simpa using (Bool.and_eq_true_iff.mp hj').1)
  · rw [Pend.pending, length_front]
    exact hn.trans (hm.n ▸ hle)

end Loops

section Tree

variable {α β : Type} {dnsSource : Source α} {connSource : Source β}

/-- The DNS child that leaves the buffer. -/
@[simp] def Event.dnsChild : Event α β → Option (Handed α)
  | .dns h => some h
  | _ => none

/-- The connect child that leaves the buffer. -/
@[simp] def Event.connChild : Event α β → Option (Handed β)
  | .conn h => some h
  | _ => none

/-- The span of a request. -/
@[simp] def Event.requestSpan : Event α β → Option GenericSpan
  | .request s => some s
  | _ => none

/-- The span of a request's wait. -/
@[simp] def Event.waitSpan : Event α β → Option GenericSpan
  | .wait s => some s
  | _ => none

@[simp] theorem requestSpan_comp_dns : Event.requestSpan ∘ @Event.dns α β = fun _ => none := rfl

@[simp] theorem requestSpan_comp_conn : Event.requestSpan ∘ @Event.conn α β = fun _ => none := rfl

@[simp] theorem dnsChild_comp_dns : Event.dnsChild ∘ @Event.dns α β = some := rfl

@[simp] theorem dnsChild_comp_conn : Event.dnsChild ∘ @Event.conn α β = fun _ => none := rfl

@[simp] theorem connChild_comp_dns : Event.connChild ∘ @Event.dns α β = fun _ => none := rfl

@[simp] theorem connChild_comp_conn : Event.connChild ∘ @Event.conn α β = some := rfl

/-- The DNS children that leave their buffer in a cycle. -/
def Tree.dnsOut (t : Tree α β) : List (Handed α) := t.work.out.filterMap Event.dnsChild

/-- The connect children that leave their buffer in a cycle. -/
def Tree.connOut (t : Tree α β) : List (Handed β) := t.work.out.filterMap Event.connChild

/-- The spans of the requests of a cycle. -/
def Tree.requests (t : Tree α β) : List GenericSpan := t.work.out.filterMap Event.requestSpan

/-- The spans of these requests, in order. -/
def RequestSpans (off : Int64) (ws : List Window) (requests : List GenericSpan) : Prop :=
  List.Forall₂ (fun w s => ∃ seed, s = (w.span off seed).1) ws requests

/-- Both loops over a buffer, after the requests `ws`. -/
structure TreeMatched (dnsSource : Source α) (connSource : Source β) (off : Int64)
    (ws : List Window) (t₀ t : Tree α β) : Prop where
  dns : Matched dnsSource off ws t.requests t₀.dns t.dns t.dnsOut
  conn : Matched connSource off ws t.requests t₀.conn t.conn t.connOut
  requests : RequestSpans off ws t.requests

/-- A request's own spans are no children. -/
theorem own_spec (w : Window) (off : Int64) (work : Work (Event α β)) :
    (w.own off work).1 = (w.span off work.seed).1 ∧
      (w.own off work).2.out.filterMap Event.requestSpan =
        work.out.filterMap Event.requestSpan ++ [(w.own off work).1] ∧
      (w.own off work).2.out.filterMap Event.dnsChild = work.out.filterMap Event.dnsChild ∧
      (w.own off work).2.out.filterMap Event.connChild = work.out.filterMap Event.connChild := by
  unfold Window.own
  cases w.wait <;> simp

theorem TreeMatched.step {t₀ t : Tree α β} (h : TreeMatched dnsSource connSource off ws t₀ t)
    (w : Window) :
    TreeMatched dnsSource connSource off (ws ++ [w]) t₀
      (t.request dnsSource connSource off (w, ws.length)) := by
  obtain ⟨hparent, hrequest₀, hdns₀, hconn₀⟩ := own_spec w off t.work
  obtain ⟨dns, work₁, dnsHs, hdns, hd⟩ := adoptAll_spec dnsSource Event.dns off ws.length w
    (w.own off t.work).1 t.dns (w.own off t.work).2
  obtain ⟨conn, work₂, connHs, hconn, hc⟩ := adoptAll_spec connSource Event.conn off ws.length w
    (w.own off t.work).1 t.conn work₁
  have hrequest : t.request dnsSource connSource off (w, ws.length) = ⟨dns, conn, work₂⟩ := by
    unfold Tree.request
    dsimp only
    rw [hdns]
    dsimp only
    rw [hconn]
  have hdnsOut : Tree.dnsOut ⟨dns, conn, work₂⟩ = t.dnsOut ++ dnsHs := by
    simp [Tree.dnsOut, hc.out, hd.out, hdns₀]
  have hconnOut : Tree.connOut ⟨dns, conn, work₂⟩ = t.connOut ++ connHs := by
    simp [Tree.connOut, hc.out, hd.out, hconn₀]
  have hrequests : Tree.requests ⟨dns, conn, work₂⟩ = t.requests ++ [(w.own off t.work).1] := by
    simp [Tree.requests, hc.out, hd.out, hrequest₀]
  have hlen := List.Forall₂.length_eq h.requests
  rw [hrequest]
  refine ⟨?_, ?_, ?_⟩
  · rw [hdnsOut, hrequests]
    exact h.dns.step hlen hd
  · rw [hconnOut, hrequests]
    exact h.conn.step hlen hc
  · rw [hrequests]
    exact List.rel_append h.requests (.cons ⟨_, hparent⟩ .nil)

theorem foldl_request (off : Int64) (ws : List Window) (t₀ : Tree α β)
    (h : TreeMatched dnsSource connSource off [] t₀ t₀) :
    TreeMatched dnsSource connSource off ws t₀
      (ws.zipIdx.foldl (Tree.request dnsSource connSource off) t₀) := by
  induction ws using List.reverseRecOn with
  | nil => exact h
  | append_singleton ws w ih =>
      rw [List.zipIdx_append, List.foldl_append]
      simpa using ih.step w

/-- A cycle as the DNS children see it. -/
def Cycle.dnsTurn (cyc : Cycle α β) (t t' : Tree α β) : Turn α :=
  ⟨cyc.parents, t'.requests, cyc.off, cyc.now, cyc.ttl, t.dns.pending, cyc.dns, t'.dnsOut⟩

/-- A cycle as the connect children see it. -/
def Cycle.connTurn (cyc : Cycle α β) (t t' : Tree α β) : Turn β :=
  ⟨cyc.parents, t'.requests, cyc.off, cyc.now, cyc.ttl, t.conn.pending, cyc.conn, t'.connOut⟩

/-- **A push accounts for the children of both kinds.** -/
theorem push_leaves (cyc : Cycle α β) (t : Tree α β) (hd : t.dns.n ≤ maxLogs)
    (hc : t.conn.n ≤ maxLogs) :
    (cyc.dnsTurn t (t.push dnsSource connSource cyc)).Leaves dnsSource
        (t.push dnsSource connSource cyc).dns.pending ∧
      (cyc.connTurn t (t.push dnsSource connSource cyc)).Leaves connSource
        (t.push dnsSource connSource cyc).conn.pending ∧
      RequestSpans cyc.off cyc.parents (t.push dnsSource connSource cyc).requests := by
  have hm := @foldl_request α β dnsSource connSource cyc.off cyc.parents
    ⟨((cyc.dns.take maxLogs).foldl Pend.carry t.dns).clear,
      ((cyc.conn.take maxLogs).foldl Pend.carry t.conn).clear, ⟨cyc.seed, []⟩⟩
    ⟨.start _ _ _, .start _ _ _, .nil⟩
  generalize hfold : cyc.parents.zipIdx.foldl (Tree.request dnsSource connSource cyc.off)
    ⟨((cyc.dns.take maxLogs).foldl Pend.carry t.dns).clear,
      ((cyc.conn.take maxLogs).foldl Pend.carry t.conn).clear, ⟨cyc.seed, []⟩⟩ = t₂ at hm
  obtain ⟨dnsHs, hdout, hdpending, hdn, hdgone, hdalone⟩ := sweep_spec dnsSource
    (@Event.dns α β) cyc.off cyc.now cyc.ttl t₂.dns t₂.work
  obtain ⟨connHs, hcout, hcpending, hcn, hcgone, hcalone⟩ := sweep_spec connSource
    (@Event.conn α β) cyc.off cyc.now cyc.ttl t₂.conn
    (t₂.dns.sweep dnsSource Event.dns cyc.off cyc.now cyc.ttl t₂.work).2
  have hpush : t.push dnsSource connSource cyc =
      ⟨(t₂.dns.sweep dnsSource Event.dns cyc.off cyc.now cyc.ttl t₂.work).1,
        (t₂.conn.sweep connSource Event.conn cyc.off cyc.now cyc.ttl
          (t₂.dns.sweep dnsSource Event.dns cyc.off cyc.now cyc.ttl t₂.work).2).1,
        (t₂.conn.sweep connSource Event.conn cyc.off cyc.now cyc.ttl
          (t₂.dns.sweep dnsSource Event.dns cyc.off cyc.now cyc.ttl t₂.work).2).2⟩ := by
    unfold Tree.push
    dsimp only
    rw [hfold]
  have hdnsOut : (t.push dnsSource connSource cyc).dnsOut = t₂.dnsOut ++ dnsHs := by
    rw [hpush]
    simp [Tree.dnsOut, hcout, hdout]
  have hconnOut : (t.push dnsSource connSource cyc).connOut = t₂.connOut ++ connHs := by
    rw [hpush]
    simp [Tree.connOut, hcout, hdout]
  have hrequests : (t.push dnsSource connSource cyc).requests = t₂.requests := by
    rw [hpush]
    simp [Tree.requests, hcout, hdout]
  unfold Cycle.dnsTurn Cycle.connTurn
  rw [hdnsOut, hconnOut, hrequests, hpush]
  exact ⟨leaves_of_loops hd hm.dns hdpending hdn hdgone hdalone,
    leaves_of_loops hc hm.conn hcpending hcn hcgone hcalone, hm.requests⟩

/-! ### Runs -/

/-- One cycle of a run, with the buffers and the sender before and after it. -/
structure Round (α β : Type) where
  cyc : Cycle α β
  before : Tree α β × Sender
  after : Tree α β × Sender

/-- The cycle as the DNS children see it. -/
def Round.dns (r : Round α β) : Turn α := r.cyc.dnsTurn r.before.1 r.after.1

/-- The cycle as the connect children see it. -/
def Round.conn (r : Round α β) : Turn β := r.cyc.connTurn r.before.1 r.after.1

/-- A run of pushes: the last state, and the cycles. -/
def runCycles (dnsSource : Source α) (connSource : Source β) (c : Collector) :
    Tree α β × Sender → List (Cycle α β) → (Tree α β × Sender) × List (Round α β)
  | st, [] => (st, [])
  | st, cyc :: cycles =>
      let next := spnlOtlpRequestTreePushObj dnsSource connSource c cyc st
      let (last, rounds) := runCycles dnsSource connSource c next cycles
      (last, ⟨cyc, st, next⟩ :: rounds)

/-- What a cycle hands to the batch. -/
structure Round.Sends (c : Collector) (r : Round α β) : Prop where
  /-- There is a span for each request. -/
  requests : RequestSpans r.cyc.off r.cyc.parents r.after.1.requests
  /-- The groups that the batch sends are, all together, the spans of the requests and of their
  waits, and those of the children that left the buffers. -/
  batch : ∃ groups : List (List Buffered), r.after.2.attempts = r.before.2.attempts ++
      groups.filterMap (attempt c (some r.cyc.endpoint) r.cyc.env.resource) ∧
    groups.flatten.Perm ((r.after.1.requests ++ r.after.1.work.out.filterMap Event.waitSpan ++
      r.dns.handed.filterMap Handed.span ++ r.conn.handed.filterMap Handed.span).map
        fun s => ⟨s.copied, false⟩)

/-- The spans of a cycle, by what they are. -/
theorem spans_perm (out : List (Event α β)) :
    (out.filterMap Event.span).Perm (out.filterMap Event.requestSpan ++
      out.filterMap Event.waitSpan ++ (out.filterMap Event.dnsChild).filterMap Handed.span ++
      (out.filterMap Event.connChild).filterMap Handed.span) := by
  induction out with
  | nil => exact .nil
  | cons e out ih =>
      -- the span goes to the front of its own part
      cases e with
      | request s => exact ih.cons s
      | wait s =>
          exact (ih.cons s).trans ((List.perm_middle.symm.append_right _).append_right _)
      | dns h =>
          simp only [List.filterMap_cons, Event.span, Event.requestSpan, Event.waitSpan,
            Event.dnsChild, Event.connChild]
          cases h.span with
          | none => exact ih
          | some s => exact (ih.cons s).trans (List.perm_middle.symm.append_right _)
      | conn h =>
          simp only [List.filterMap_cons, Event.span, Event.requestSpan, Event.waitSpan,
            Event.dnsChild, Event.connChild]
          cases h.span with
          | none => exact ih
          | some s => exact (ih.cons s).trans List.perm_middle.symm

/-- **A push hands the spans of its cycle to the batch.** -/
theorem push_sends (c : Collector) (cyc : Cycle α β) (st : Tree α β × Sender)
    (hrequests : RequestSpans cyc.off cyc.parents (st.1.push dnsSource connSource cyc).requests) :
    Round.Sends c ⟨cyc, st, spnlOtlpRequestTreePushObj dnsSource connSource c cyc st⟩ := by
  obtain ⟨groups, hflat, hattempts⟩ := otlpPush_groups c cyc.endpoint cyc.env
    ((st.1.push dnsSource connSource cyc).work.out.filterMap Event.span) st.2
  refine ⟨hrequests, groups, hattempts, ?_⟩
  rw [hflat]
  exact (spans_perm _).map _

/-- **Every child is accounted for** once `turns` are over and `pending` is left: what entered the
buffer is pending or has left once, pending children are in the order of arrival, each child left
for a reason, and a drained child is dropped only when the buffer is full. -/
structure Accounted (src : Source α) (start : List α) (turns : List (Turn α)) (pending : List α) :
    Prop where
  once : (start ++ turns.flatMap Turn.entered).Perm
    (pending ++ turns.flatMap fun u => u.handed.map Handed.child)
  order : pending.Sublist (start ++ turns.flatMap Turn.entered)
  right : ∀ u ∈ turns, ∀ h ∈ u.handed, u.Right src h
  dropped : ∀ u ∈ turns, u.entered ≠ u.arrived → u.held.length + u.entered.length = maxLogs

theorem entered_full (u : Turn α) (hle : u.held.length ≤ maxLogs) (h : u.entered ≠ u.arrived) :
    u.held.length + u.entered.length = maxLogs := by
  have hlong : maxLogs - u.held.length < u.arrived.length := by
    by_contra hshort
    exact h (List.take_of_length_le (by omega))
  rw [Turn.entered, List.length_take]
  omega

theorem Accounted.nil (src : Source α) (start : List α) : Accounted src start [] start :=
  ⟨by simp, by simp, fun _ hu => absurd hu List.not_mem_nil, fun _ hu => absurd hu List.not_mem_nil⟩

/-- One more cycle, in front. -/
theorem Accounted.cons {src : Source α} {u : Turn α} {turns : List (Turn α)}
    {next pending : List α} (hle : u.held.length ≤ maxLogs) (hu : u.Leaves src next)
    (h : Accounted src next turns pending) : Accounted src u.held (u :: turns) pending := by
  refine ⟨?_, ?_, ?_, ?_⟩
  · rw [List.flatMap_cons, List.flatMap_cons, ← List.append_assoc]
    calc u.held ++ u.entered ++ turns.flatMap Turn.entered
      _ ~ next ++ u.handed.map Handed.child ++ turns.flatMap Turn.entered :=
          hu.once.append_right _
      _ ~ u.handed.map Handed.child ++ (next ++ turns.flatMap Turn.entered) := by
          rw [← List.append_assoc]
          exact List.perm_append_comm.append_right _
      _ ~ u.handed.map Handed.child ++
            (pending ++ turns.flatMap fun u => u.handed.map Handed.child) :=
          h.once.append_left _
      _ ~ pending ++ (u.handed.map Handed.child ++
            turns.flatMap fun u => u.handed.map Handed.child) := by
          rw [← List.append_assoc, ← List.append_assoc]
          exact List.perm_append_comm.append_right _
  · rw [List.flatMap_cons, ← List.append_assoc]
    exact h.order.trans (hu.order.append_right _)
  · exact List.forall_mem_cons.mpr ⟨hu.right, h.right⟩
  · exact List.forall_mem_cons.mpr ⟨entered_full u hle, h.dropped⟩

/-- Both kinds of children are accounted for, and each cycle hands its spans to the batch. -/
structure Once (dnsSource : Source α) (connSource : Source β) (c : Collector) (start : Tree α β)
    (last : Tree α β) (rounds : List (Round α β)) : Prop where
  dns : Accounted dnsSource start.dns.pending (rounds.map Round.dns) last.dns.pending
  conn : Accounted connSource start.conn.pending (rounds.map Round.conn) last.conn.pending
  sends : ∀ r ∈ rounds, r.Sends c

theorem run_once (c : Collector) (cycles : List (Cycle α β)) (st : Tree α β × Sender)
    (hd : st.1.dns.n ≤ maxLogs) (hc : st.1.conn.n ≤ maxLogs) :
    Once dnsSource connSource c st.1 (runCycles dnsSource connSource c st cycles).1.1
      (runCycles dnsSource connSource c st cycles).2 := by
  induction cycles generalizing st with
  | nil => exact ⟨.nil _ _, .nil _ _, fun _ hr => absurd hr List.not_mem_nil⟩
  | cons cyc cycles ih =>
      obtain ⟨hdns, hconn, hrequests⟩ := @push_leaves α β dnsSource connSource cyc st.1 hd hc
      have hlen : ∀ {γ : Type} (p : Pend γ), p.pending.length = p.n := fun p => length_front
      have hrest := ih (spnlOtlpRequestTreePushObj dnsSource connSource c cyc st)
        ((hlen _).symm.trans_le hdns.le) ((hlen _).symm.trans_le hconn.le)
      exact ⟨.cons ((hlen _).trans_le hd) hdns hrest.dns, .cons ((hlen _).trans_le hc) hconn hrest.conn,
        List.forall_mem_cons.mpr ⟨push_sends c cyc st hrequests, hrest.sends⟩⟩

/-- Empty buffers, whatever their cells hold. -/
def Tree.empty (dns : Pend α) (conn : Pend β) (work : Work (Event α β)) : Tree α β :=
  ⟨{ dns with n := 0 }, { conn with n := 0 }, work⟩

/-- **Children leave the pending buffers exactly once**: over any cycles from empty buffers, for any
fillers, clocks and drained records, the children of both kinds are accounted for, and what the
batch is handed are their spans and those of the requests. -/
theorem children_once (dnsSource : Source α) (connSource : Source β) (c : Collector) (dns : Pend α)
    (conn : Pend β) (work : Work (Event α β)) (sender : Sender) (cycles : List (Cycle α β)) :
    let run := runCycles dnsSource connSource c (Tree.empty dns conn work, sender) cycles
    Accounted dnsSource [] (run.2.map Round.dns) run.1.1.dns.pending ∧
      Accounted connSource [] (run.2.map Round.conn) run.1.1.conn.pending ∧
      ∀ r ∈ run.2, r.Sends c := by
  intro run
  have honce := @run_once α β dnsSource connSource c cycles (Tree.empty dns conn work, sender)
    (Nat.zero_le _) (Nat.zero_le _)
  exact ⟨honce.dns, honce.conn, honce.sends⟩

end Tree

end SpinelEbpf.Otlp.RequestTree

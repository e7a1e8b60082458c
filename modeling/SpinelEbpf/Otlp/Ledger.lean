import SpinelEbpf.Otlp.Traces
import SpinelEbpf.Support.Mixing

/-!
# Otlp — the ledger of calls

What `otlp_traces_assemble` does, without its slot table, its output bound and its random ids.  The
ledger keeps a stack of open calls for each thread and lists the calls that are over; an id is
a number, its place among the words drawn.

The loop refines the ledger (`step_represents`, `run_represents`): slot `k` is the stack of the
`k`-th thread, the output array holds the first calls that are over, and the id with number `n` is
the `n`-th word of the generator, written out.  The words of one run are distinct (`word_injOn`).
-/

namespace SpinelEbpf.Otlp.Traces
open Function Otlp

/-! ### The ledger -/

/-- A call that is open: the numbers of its span id, of its parent's span id, and of the first half
of its trace id. -/
structure OpenCall where
  number : Nat
  parent : Option Nat
  root : Nat
  start : UInt64
  idx : Int32
  deriving DecidableEq, Repr

/-- A call that is over. -/
structure DoneCall extends OpenCall where
  tid : UInt64
  finish : UInt64
  deriving DecidableEq, Repr

/-- The threads in the order of their first events, their open calls with the innermost first,
the number of words drawn, and the calls that are over. -/
structure Ledger where
  threads : List UInt64
  stack : UInt64 → List OpenCall
  next : Nat
  out : List DoneCall

namespace Ledger

def empty : Ledger := ⟨[], fun _ => [], 0, []⟩

/-- A thread is known, or there is room for it. -/
def enrol (L : Ledger) (tid : UInt64) : Option Ledger :=
  if tid ∈ L.threads then some L
  else if L.threads.length ≥ maxTids then none
  else some { L with threads := L.threads ++ [tid] }

/-- The call that an enter opens inside `calls`: an outermost one draws a trace id first. -/
def opened (off : Int64) (e : SpanEvent) (calls : List OpenCall) (next : Nat) : OpenCall :=
  match calls with
  | []     => ⟨next + 2, none, next, unixNs off e, e.idx⟩
  | o :: _ => ⟨next, some o.number, o.root, unixNs off e, e.idx⟩

def enter (off : Int64) (e : SpanEvent) (L : Ledger) : Ledger :=
  let calls := L.stack e.tid
  if calls.length ≥ maxDepth then L
  else
    let o := opened off e calls L.next
    { L with stack := update L.stack e.tid (o :: calls), next := o.number + 1 }

def exit (off : Int64) (e : SpanEvent) (L : Ledger) : Ledger :=
  match L.stack e.tid with
  | []        => L
  | o :: rest =>
      { L with stack := update L.stack e.tid rest
               out := L.out ++ [⟨o, e.tid, unixNs off e⟩] }

def step (off : Int64) (L : Ledger) (e : SpanEvent) : Ledger :=
  match L.enrol e.tid with
  | none   => L
  | some L => if e.kind = 0 then L.enter off e else L.exit off e

def run (off : Int64) (ev : List SpanEvent) : Ledger := ev.foldl (step off) empty

theorem run_concat (off : Int64) (ev : List SpanEvent) (e : SpanEvent) :
    run off (ev ++ [e]) = (run off ev).step off e := by
  rw [run, run, List.foldl_append]
  rfl

end Ledger

/-! ### Words -/

/-- The state of the generator after `n` words. -/
def seedAt (seed : UInt64) (n : Nat) : UInt64 := seed + UInt64.ofNat n * 0x9E3779B97F4A7C15

/-- Word `n` drawn from a seed. -/
def word (seed : UInt64) (n : Nat) : UInt64 := (splitmix64 (seedAt seed n)).1

theorem splitmix64_seedAt (seed : UInt64) (n : Nat) :
    splitmix64 (seedAt seed n) = (word seed n, seedAt seed (n + 1)) := by
  refine Prod.ext rfl ?_
  show seed + UInt64.ofNat n * _ + _ = seed + UInt64.ofNat (n + 1) * _
  rw [UInt64.ofNat_add, UInt64.add_mul, UInt64.add_assoc]
  rfl

theorem seedAt_zero (seed : UInt64) : seedAt seed 0 = seed := by
  show seed + 0 * _ = seed
  rw [UInt64.zero_mul, UInt64.add_zero]

/-- What is done to the state to get a word. -/
def mixed (z : BitVec 64) : BitVec 64 :=
  let z := (z ^^^ (z >>> 30)) * 0xBF58476D1CE4E5B9#64
  let z := (z ^^^ (z >>> 27)) * 0x94D049BB133111EB#64
  z ^^^ (z >>> 31)

theorem mixed_injective : Function.Injective mixed := by
  have h30 := Mixing.xorShift_injective (w := 64) (show 0 < 30 by decide)
  have h27 := Mixing.xorShift_injective (w := 64) (show 0 < 27 by decide)
  have h31 := Mixing.xorShift_injective (w := 64) (show 0 < 31 by decide)
  have hm := Mixing.mul_odd_injective (show (0xBF58476D1CE4E5B9#64).toNat % 2 = 1 by decide)
  have hm' := Mixing.mul_odd_injective (show (0x94D049BB133111EB#64).toNat % 2 = 1 by decide)
  exact h31.comp (hm'.comp (h27.comp (hm.comp h30)))

theorem word_toBitVec (seed : UInt64) (n : Nat) :
    (word seed n).toBitVec = mixed ((seedAt seed n).toBitVec + 0x9E3779B97F4A7C15#64) := by
  unfold word splitmix64 mixed
  rfl

/-- **The words of a run are distinct**, up to 2⁶⁴ of them. -/
theorem word_injOn (seed : UInt64) : Set.InjOn (word seed) {n | n < 2 ^ 64} := by
  intro m hm n hn h
  have hmix := congrArg UInt64.toBitVec h
  rw [word_toBitVec, word_toBitVec] at hmix
  have hstate := (BitVec.add_left_inj _).mp (mixed_injective hmix)
  exact Mixing.stride_injOn seed.toBitVec (show (0x9E3779B97F4A7C15#64).toNat % 2 = 1 by decide) hm hn
    hstate

/-! ### The ledger of a state -/

/-- The span id with number `n`. -/
def idOf (seed : UInt64) (n : Nat) : List UInt8 := putU64Be (word seed n)

/-- The trace id whose first half has number `n`. -/
def traceOf (seed : UInt64) (n : Nat) : List UInt8 := idOf seed n ++ idOf seed (n + 1)

/-- The span of a call that is over. -/
def DoneCall.span (id trace : Nat → List UInt8) (c : DoneCall) : Span where
  traceId := trace c.root
  spanId := id c.number
  parentSpanId := (c.parent.map id).getD (List.replicate 8 0)
  hasParent := c.parent.isSome
  methodIdx := c.idx
  startUnixNs := c.start
  endUnixNs := c.finish

/-- `p` is the call `o`; the parent field of an outermost call is never written. -/
structure Holds (seed : UInt64) (o : OpenCall) (p : Pending) : Prop where
  spanId : p.spanId = idOf seed o.number
  hasParent : p.hasParent = o.parent.isSome
  parent : ∀ n, o.parent = some n → p.parentSpanId = idOf seed n
  trace : p.traceId = traceOf seed o.root
  start : p.start = o.start
  idx : p.idx = o.idx

/-- A slot holds the open calls of its thread, the outermost first. -/
structure Keeps (seed : UInt64) (calls : List OpenCall) (s : TidSlot) : Prop where
  depth : s.depth = calls.length
  entry : ∀ d o, calls.reverse[d]? = some o → Holds seed o (s.stack d)
  trace : ∀ o ∈ calls, s.traceId = traceOf seed o.root

/-- The state of the loop is the ledger's. -/
structure Represents (seed : UInt64) (maxOut : Nat) (st : Assembly) (L : Ledger) : Prop where
  nslots : st.nslots = L.threads.length
  nodup : L.threads.Nodup
  slot : ∀ k t, L.threads[k]? = some t → (st.slots k).tid = t ∧ Keeps seed (L.stack t) (st.slots k)
  silent : ∀ t, t ∉ L.threads → L.stack t = []
  rng : st.rng = seedAt seed L.next
  out : st.out = (L.out.take maxOut).map (DoneCall.span (idOf seed) (traceOf seed))

section

variable {seed : UInt64} {maxOut k : Nat} {off : Int64} {st : Assembly} {L : Ledger} {e : SpanEvent}
  {s : TidSlot} {calls : List OpenCall} {o : OpenCall}

theorem represents_start (slots : Nat → TidSlot) :
    Represents seed maxOut (.start slots seed) .empty where
  nslots := rfl
  nodup := List.nodup_nil
  slot := by
    intro k t h
    cases h
  silent _ _ := rfl
  rng := (seedAt_zero seed).symm
  out := by rw [Ledger.empty, List.take_nil]; rfl

/-! ### Finding the slot -/

theorem Keeps.nil (h : s.depth = 0) : Keeps seed [] s where
  depth := h
  entry := by
    intro d o hd
    cases hd
  trace := by
    intro o ho
    cases ho

/-- An event finds its slot when the ledger admits its thread. -/
theorem locate_enrol (h : Represents seed maxOut st L) (tid : UInt64) :
    (st.locate tid = none ∧ L.enrol tid = none) ∨
      ∃ k st' L', st.locate tid = some (k, st') ∧ L.enrol tid = some L' ∧
        Represents seed maxOut st' L' ∧ L'.threads[k]? = some tid := by
  unfold Assembly.locate Ledger.enrol
  cases hfind : (List.range st.nslots).find? fun k => (st.slots k).tid = tid with
  | some k =>
      have hk : k < L.threads.length :=
        h.nslots ▸ List.mem_range.mp (List.mem_of_find?_eq_some hfind)
      have htid : (st.slots k).tid = tid := by simpa using List.find?_some hfind
      have hget : L.threads[k]? = some tid := by
        rw [← htid, (h.slot k _ (List.getElem?_eq_getElem hk)).1, List.getElem?_eq_getElem hk]
      rw [if_pos (List.mem_of_getElem? hget)]
      exact .inr ⟨k, st, L, rfl, rfl, h, hget⟩
  | none =>
      have hnew : tid ∉ L.threads := by
        intro hmem
        obtain ⟨k, hk⟩ := List.getElem?_of_mem hmem
        have hlt : k < st.nslots := h.nslots ▸ (List.getElem?_eq_some_iff.mp hk).1
        have := List.find?_eq_none.mp hfind k (List.mem_range.mpr hlt)
        exact this (decide_eq_true (h.slot k tid hk).1)
      rw [if_neg hnew, h.nslots]
      dsimp only
      by_cases hfull : L.threads.length ≥ maxTids
      · rw [if_pos hfull, if_pos hfull]
        exact .inl ⟨rfl, rfl⟩
      rw [if_neg hfull, if_neg hfull]
      refine .inr ⟨_, _, _, rfl, rfl, ⟨?_, ?_, ?_, ?_, h.rng, h.out⟩, ?_⟩
      · rw [List.length_append, List.length_singleton]
      · exact List.nodup_append.mpr ⟨h.nodup, List.nodup_singleton tid, fun a ha b hb => by
          rintro rfl
          exact hnew (List.mem_singleton.mp hb ▸ ha)⟩
      · intro j t hj
        dsimp only
        rw [List.getElem?_append] at hj
        split at hj
        · rename_i hlt
          rw [update_of_ne hlt.ne]
          exact h.slot j t hj
        · have hjk : j = L.threads.length := by
            obtain ⟨hlt, -⟩ := List.getElem?_eq_some_iff.mp hj
            rw [List.length_singleton] at hlt
            omega
          subst hjk
          rw [Nat.sub_self] at hj
          obtain rfl := Option.some.inj hj
          rw [update_self, h.silent _ hnew]
          exact ⟨rfl, Keeps.nil rfl⟩
      · intro t ht
        exact h.silent t fun hmem => ht (List.mem_append_left _ hmem)
      · exact List.getElem?_concat_length

/-! ### One slot changes -/

/-- A slot and the stack of its thread change together; the other slots stay. -/
theorem Represents.touch (h : Represents seed maxOut st L) {tid : UInt64}
    (hk : L.threads[k]? = some tid) (hs : Keeps seed calls s) (htid : s.tid = tid) {j : Nat}
    {t : UInt64} (hj : L.threads[j]? = some t) :
    (update st.slots k s j).tid = t ∧
      Keeps seed (update L.stack tid calls t) (update st.slots k s j) := by
  by_cases hjk : j = k
  · subst hjk
    obtain rfl := Option.some.inj (hk.symm.trans hj)
    rw [update_self, update_self]
    exact ⟨htid, hs⟩
  · have ht : t ≠ tid := by
      rintro rfl
      obtain ⟨hlt, -⟩ := List.getElem?_eq_some_iff.mp hj
      exact hjk ((List.getElem?_inj hlt h.nodup).mp (hj.trans hk.symm))
    rw [update_of_ne hjk, update_of_ne ht]
    exact h.slot j t hj

/-- The threads without a slot stay silent. -/
theorem Represents.silent_update (h : Represents seed maxOut st L) {tid : UInt64}
    (hk : L.threads[k]? = some tid) {t : UInt64} (ht : t ∉ L.threads) :
    update L.stack tid calls t = [] := by
  have hne : t ≠ tid := by
    rintro rfl
    exact ht (List.mem_of_getElem? hk)
  rw [update_of_ne hne]
  exact h.silent t ht

/-! ### Enter -/

/-- The innermost open call is on top of the stack. -/
theorem Keeps.top (h : Keeps seed (o :: calls) s) :
    Holds seed o (s.stack (s.depth - 1)) := by
  refine h.entry _ o ?_
  rw [h.depth, List.length_cons, Nat.add_sub_cancel, List.reverse_cons,
    ← @List.length_reverse _ calls, List.getElem?_concat_length]

/-- What an enter puts on the stack is the call that the ledger opens. -/
theorem Keeps.pend (h : Keeps seed calls s) (off : Int64) (e : SpanEvent) (n : Nat) :
    Holds seed (Ledger.opened off e calls n) (s.pend off e (seedAt seed n)).1 ∧
      (s.pend off e (seedAt seed n)).2 = seedAt seed ((Ledger.opened off e calls n).number + 1) := by
  cases calls with
  | nil =>
      have hzero : s.depth = 0 := h.depth
      have htrace : s.trace (seedAt seed n) = (traceOf seed n, seedAt seed (n + 2)) := by
        rw [TidSlot.trace, if_pos hzero, splitmix64_seedAt]
        dsimp only
        rw [splitmix64_seedAt]
        rfl
      have hflag : decide (s.depth > 0) = false := decide_eq_false (by omega)
      unfold TidSlot.pend Ledger.opened
      rw [htrace, hflag]
      dsimp only
      rw [splitmix64_seedAt]
      refine ⟨⟨rfl, rfl, ?_, rfl, rfl, rfl⟩, rfl⟩
      intro m hm
      cases hm
  | cons o calls =>
      have hpos : s.depth = calls.length + 1 := h.depth
      have htrace : s.trace (seedAt seed n) = (traceOf seed o.root, seedAt seed n) := by
        rw [TidSlot.trace, if_neg (by omega), h.trace o List.mem_cons_self]
      have hflag : decide (s.depth > 0) = true := decide_eq_true (by omega)
      unfold TidSlot.pend Ledger.opened
      rw [htrace, hflag]
      dsimp only
      rw [splitmix64_seedAt]
      refine ⟨⟨rfl, rfl, ?_, rfl, rfl, rfl⟩, rfl⟩
      intro m hm
      obtain rfl := Option.some.inj hm
      rw [if_pos rfl]
      exact h.top.spanId

/-- A pushed call. -/
theorem Keeps.push (h : Keeps seed calls s) {p : Pending} (hp : Holds seed o p)
    (hsame : calls ≠ [] → p.traceId = s.traceId) :
    Keeps seed (o :: calls)
      { s with traceId := p.traceId, stack := update s.stack s.depth p
               depth := s.depth + 1 } where
  depth := by rw [List.length_cons, ← h.depth]
  entry := by
    intro d o' hd
    dsimp only
    rw [List.reverse_cons, List.getElem?_append, List.length_reverse, ← h.depth] at hd
    split at hd
    · rename_i hlt
      rw [update_of_ne hlt.ne]
      exact h.entry d o' hd
    · have hds : d = s.depth := by
        obtain ⟨hlt, -⟩ := List.getElem?_eq_some_iff.mp hd
        rw [List.length_singleton] at hlt
        omega
      subst hds
      rw [Nat.sub_self] at hd
      obtain rfl := Option.some.inj hd
      rw [update_self]
      exact hp
  trace := by
    intro o' ho'
    rcases List.mem_cons.mp ho' with rfl | ho'
    · exact hp.trace
    · exact (hsame (List.ne_nil_of_mem ho')).trans (h.trace o' ho')

theorem enter_represents (h : Represents seed maxOut st L) (hk : L.threads[k]? = some e.tid) :
    Represents seed maxOut (st.enter off e k) (L.enter off e) := by
  obtain ⟨htid, hkeeps⟩ := h.slot k e.tid hk
  unfold Assembly.enter Ledger.enter
  dsimp only
  rw [hkeeps.depth]
  by_cases hfull : (L.stack e.tid).length ≥ maxDepth
  · rw [if_pos hfull, if_pos hfull]
    exact h
  rw [if_neg hfull, if_neg hfull, h.rng]
  obtain ⟨hholds, hrng⟩ := hkeeps.pend off e L.next
  have hsame : L.stack e.tid ≠ [] →
      ((st.slots k).pend off e (seedAt seed L.next)).1.traceId = (st.slots k).traceId := by
    intro hne
    show ((st.slots k).trace _).1 = _
    have hpos : (st.slots k).depth ≠ 0 := by
      rw [hkeeps.depth]
      exact fun hzero => hne (List.length_eq_zero_iff.mp hzero)
    rw [TidSlot.trace, if_neg hpos]
  have hpush := hkeeps.push hholds hsame
  rw [hkeeps.depth] at hpush
  exact ⟨h.nslots, h.nodup, fun _ _ hj => h.touch hk hpush htid hj,
    fun _ ht => h.silent_update hk ht, hrng, h.out⟩

/-! ### Exit -/

/-- A popped call. -/
theorem Keeps.pop (h : Keeps seed (o :: calls) s) :
    Keeps seed calls { s with depth := s.depth - 1 } where
  depth := by
    show s.depth - 1 = _
    rw [h.depth, List.length_cons, Nat.add_sub_cancel]
  entry := by
    intro d o' hd
    refine h.entry d o' ?_
    obtain ⟨hlt, -⟩ := List.getElem?_eq_some_iff.mp hd
    rwa [List.reverse_cons, List.getElem?_append_left hlt]
  trace := fun o' ho' => h.trace o' (List.mem_cons_of_mem _ ho')

/-- The span of a call that is taken from a stack. -/
theorem Holds.close {p : Pending} (h : Holds seed o p) :
    p.close off e = DoneCall.span (idOf seed) (traceOf seed) ⟨o, e.tid, unixNs off e⟩ := by
  unfold Pending.close DoneCall.span
  rw [h.trace, h.spanId, h.hasParent, h.idx, h.start]
  congr 1
  cases hparent : o.parent with
  | none => rfl
  | some n => exact h.parent n hparent

/-- The first `maxOut` calls that are over, with one more. -/
theorem take_concat {α : Type} (l : List α) (a : α) (m : Nat) :
    (l ++ [a]).take m = if (l.take m).length ≥ m then l.take m else l.take m ++ [a] := by
  rw [List.length_take, List.take_append]
  split
  · rw [Nat.sub_eq_zero_of_le (by omega), List.take_zero, List.append_nil]
  · rw [List.take_of_length_le (show [a].length ≤ m - l.length by rw [List.length_singleton]; omega)]

theorem exit_represents (h : Represents seed maxOut st L) (hk : L.threads[k]? = some e.tid) :
    Represents seed maxOut (st.exit off maxOut e k) (L.exit off e) := by
  obtain ⟨htid, hkeeps⟩ := h.slot k e.tid hk
  unfold Assembly.exit Ledger.exit
  dsimp only
  cases hcalls : L.stack e.tid with
  | nil =>
      rw [hcalls] at hkeeps
      rw [if_pos (show (st.slots k).depth = 0 from hkeeps.depth)]
      exact h
  | cons o rest =>
      rw [hcalls] at hkeeps
      have hpos : ¬ (st.slots k).depth = 0 := by
        rw [hkeeps.depth, List.length_cons]
        omega
      have hlen : st.out.length = (L.out.take maxOut).length := by rw [h.out, List.length_map]
      have hout := take_concat L.out ⟨o, e.tid, unixNs off e⟩ maxOut
      rw [if_neg hpos, hlen]
      by_cases hfull : (L.out.take maxOut).length ≥ maxOut
      · rw [if_pos hfull] at hout ⊢
        refine ⟨h.nslots, h.nodup, fun _ _ hj => h.touch hk hkeeps.pop htid hj,
          fun _ ht => h.silent_update hk ht, h.rng, ?_⟩
        rw [hout]
        exact h.out
      · rw [if_neg hfull] at hout ⊢
        refine ⟨h.nslots, h.nodup, fun _ _ hj => h.touch hk hkeeps.pop htid hj,
          fun _ ht => h.silent_update hk ht, h.rng, ?_⟩
        rw [hout, List.map_append, List.map_singleton, ← hkeeps.top.close, ← h.out]

/-! ### Steps and runs -/

/-- **One event.** -/
theorem step_represents (h : Represents seed maxOut st L) (off : Int64) (e : SpanEvent) :
    Represents seed maxOut (st.step off maxOut e) (L.step off e) := by
  unfold Assembly.step Ledger.step
  rcases locate_enrol h e.tid with ⟨hloc, henrol⟩ | ⟨k, st', L', hloc, henrol, h', hk⟩
  · rw [hloc, henrol]
    exact h
  · rw [hloc, henrol]
    dsimp only
    split
    · exact enter_represents h' hk
    · exact exit_represents h' hk

/-- **Every state of the loop is the ledger's.** -/
theorem run_represents (slots : Nat → TidSlot) (ev : List SpanEvent) :
    Represents seed maxOut (ev.foldl (Assembly.step off maxOut) (.start slots seed))
      (Ledger.run off ev) := by
  induction ev using List.reverseRecOn with
  | nil => exact represents_start slots
  | append_singleton ev e ih =>
      rw [List.foldl_append, Ledger.run_concat]
      exact step_represents ih off e

end

end SpinelEbpf.Otlp.Traces

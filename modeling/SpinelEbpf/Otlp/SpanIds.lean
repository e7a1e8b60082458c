import SpinelEbpf.Otlp.Ledger

/-!
# Otlp — span ids are distinct

Every word that `otlp_traces_assemble` draws is drawn for one purpose: half of a trace id, or a span
id.  In the ledger a call keeps its number from its enter to its exit and no other call has it
(`Ledger.Distinct`); as the words of a run are distinct and are written out in full, no two spans
have the same id (`span_ids_distinct`).
-/

namespace SpinelEbpf.Otlp.Traces
open Function Otlp

/-! ### The words a run draws -/

/-- What `splitmix64` returns during an enter. -/
def TidSlot.words (s : TidSlot) (rng : UInt64) : List UInt64 :=
  if s.depth = 0 then
    let (hi, rng) := splitmix64 rng
    let (lo, rng) := splitmix64 rng
    [hi, lo, (splitmix64 rng).1]
  else [(splitmix64 rng).1]

/-- What it returns during an event. -/
def Assembly.words (st : Assembly) (e : SpanEvent) : List UInt64 :=
  match st.locate e.tid with
  | none => []
  | some (k, st) =>
      if e.kind = 0 ∧ (st.slots k).depth < maxDepth then (st.slots k).words st.rng else []

/-- What it returns during the events `ev`, from state `st`. -/
def wordsFrom (off : Int64) (maxOut : Nat) : Assembly → List SpanEvent → List UInt64
  | _, []        => []
  | st, e :: ev  => st.words e ++ wordsFrom off maxOut (st.step off maxOut e) ev

/-- The words drawn in one call of `otlp_traces_assemble`, in order. -/
def drawnWords (slots : Nat → TidSlot) (ev : List SpanEvent) (off : Int64) (seed : UInt64)
    (maxOut : Nat) : List UInt64 :=
  wordsFrom off maxOut (.start slots seed) ev

/-- The stream is an array in memory: `sizeof(otlp_span_event_t)` is 24. -/
def Addressable (ev : List SpanEvent) : Prop := 24 * ev.length ≤ 2 ^ 64

instance (ev : List SpanEvent) : Decidable (Addressable ev) :=
  inferInstanceAs (Decidable (24 * ev.length ≤ 2 ^ 64))

/-- The words from number `m` to number `n`. -/
def wordsBetween (seed : UInt64) (m n : Nat) : List UInt64 := (List.range' m (n - m)).map (word seed)

theorem wordsBetween_self (seed : UInt64) (n : Nat) : wordsBetween seed n n = [] := by
  rw [wordsBetween, Nat.sub_self]
  rfl

theorem wordsBetween_append {seed : UInt64} {l m n : Nat} (hlm : l ≤ m) (hmn : m ≤ n) :
    wordsBetween seed l m ++ wordsBetween seed m n = wordsBetween seed l n := by
  have hm : m = l + 1 * (m - l) := by omega
  unfold wordsBetween
  rw [← List.map_append]
  conv_lhs => rw [show List.range' m (n - m) = List.range' (l + 1 * (m - l)) (n - m) by rw [← hm]]
  rw [List.range'_append, show m - l + (n - m) = n - l by omega]

section

variable {seed : UInt64} {maxOut : Nat} {off : Int64} {st : Assembly} {L : Ledger} {e : SpanEvent}
  {s : TidSlot} {calls : List OpenCall}

theorem Keeps.words (h : Keeps seed calls s) (n : Nat) :
    s.words (seedAt seed n) =
      wordsBetween seed n ((Ledger.opened off e calls n).number + 1) := by
  unfold TidSlot.words
  cases calls with
  | nil =>
      rw [if_pos (show s.depth = 0 from h.depth), splitmix64_seedAt]
      dsimp only
      rw [splitmix64_seedAt]
      dsimp only
      rw [splitmix64_seedAt, wordsBetween, Ledger.opened, show n + 2 + 1 - n = 3 by omega]
      rfl
  | cons o calls =>
      have hpos : ¬ s.depth = 0 := by
        rw [h.depth, List.length_cons]
        omega
      rw [if_neg hpos, splitmix64_seedAt, wordsBetween, Ledger.opened, Nat.add_sub_cancel_left]
      rfl

theorem opened_number (off : Int64) (e : SpanEvent) (calls : List OpenCall) (n : Nat) :
    n ≤ (Ledger.opened off e calls n).number ∧ (Ledger.opened off e calls n).number ≤ n + 2 := by
  cases calls with
  | nil => exact ⟨Nat.le_add_right n 2, le_refl _⟩
  | cons o calls => exact ⟨le_refl n, Nat.le_add_right n 2⟩

theorem enrol_next {L' : Ledger} {tid : UInt64} (h : L.enrol tid = some L') :
    L'.next = L.next ∧ L'.stack = L.stack ∧ L'.out = L.out := by
  unfold Ledger.enrol at h
  split at h
  · obtain rfl := Option.some.inj h
    exact ⟨rfl, rfl, rfl⟩
  split at h
  · cases h
  obtain rfl := Option.some.inj h
  exact ⟨rfl, rfl, rfl⟩

theorem exit_next (L : Ledger) : (L.exit off e).next = L.next := by
  unfold Ledger.exit
  split <;> rfl

/-- An event draws the next words of the generator, at most three. -/
theorem step_words (h : Represents seed maxOut st L) (off : Int64) (e : SpanEvent) :
    st.words e = wordsBetween seed L.next (L.step off e).next ∧ L.next ≤ (L.step off e).next ∧
      (L.step off e).next ≤ L.next + 3 := by
  unfold Assembly.words Ledger.step
  rcases locate_enrol h e.tid with ⟨hloc, henrol⟩ | ⟨k, st', L', hloc, henrol, h', hk⟩
  · rw [hloc, henrol]
    exact ⟨(wordsBetween_self ..).symm, le_refl _, Nat.le_add_right _ _⟩
  obtain ⟨hnext, -, -⟩ := enrol_next henrol
  rw [hloc, henrol, ← hnext]
  dsimp only
  by_cases hkind : e.kind = 0
  · have hkeeps := (h'.slot k e.tid hk).2
    rw [if_pos hkind, hkeeps.depth, Ledger.enter]
    by_cases hfull : (L'.stack e.tid).length ≥ maxDepth
    · rw [if_neg fun hc => Nat.not_lt.mpr hfull hc.2, if_pos hfull]
      exact ⟨(wordsBetween_self ..).symm, le_refl _, Nat.le_add_right _ _⟩
    · obtain ⟨hlo, hhi⟩ := opened_number off e (L'.stack e.tid) L'.next
      rw [if_pos ⟨hkind, Nat.not_le.mp hfull⟩, if_neg hfull, h'.rng]
      exact ⟨hkeeps.words L'.next, Nat.le_succ_of_le hlo, Nat.succ_le_succ hhi⟩
  · rw [if_neg fun hc => hkind hc.1, if_neg hkind, exit_next]
    exact ⟨(wordsBetween_self ..).symm, le_refl _, Nat.le_add_right _ _⟩

/-- **A run draws consecutive words**, at most three for each event. -/
theorem run_words (h : Represents seed maxOut st L) (ev : List SpanEvent) :
    wordsFrom off maxOut st ev = wordsBetween seed L.next (ev.foldl (Ledger.step off) L).next ∧
      L.next ≤ (ev.foldl (Ledger.step off) L).next ∧
      (ev.foldl (Ledger.step off) L).next ≤ L.next + 3 * ev.length := by
  induction ev generalizing st L with
  | nil =>
      rw [List.foldl_nil, wordsBetween_self]
      exact ⟨rfl, le_refl _, Nat.le_add_right _ _⟩
  | cons e ev ih =>
      obtain ⟨hwords, hle, hbound⟩ := step_words h off e
      obtain ⟨hrest, hle', hbound'⟩ := ih (step_represents h off e)
      rw [wordsFrom, List.foldl_cons, hwords, hrest, wordsBetween_append hle hle', List.length_cons]
      exact ⟨rfl, hle.trans hle', by omega⟩

/-! ### A number belongs to one call -/

/-- The numbers of a call have been drawn before number `n`. -/
structure OpenCall.Below (n : Nat) (o : OpenCall) : Prop where
  number : o.number < n
  parent : ∀ p, o.parent = some p → p < n
  root : o.root + 1 < n

theorem OpenCall.Below.mono {m n : Nat} {o : OpenCall} (h : o.Below m) (hmn : m ≤ n) : o.Below n :=
  ⟨h.number.trans_le hmn, fun p hp => (h.parent p hp).trans_le hmn, h.root.trans_le hmn⟩

/-- The calls of a ledger, open or over, have numbers of their own. -/
structure Ledger.Distinct (L : Ledger) : Prop where
  below : ∀ t, ∀ o ∈ L.stack t, o.Below L.next
  belowDone : ∀ c ∈ L.out, c.toOpenCall.Below L.next
  stack : ∀ t, ((L.stack t).map OpenCall.number).Nodup
  apart : ∀ t t', t ≠ t' → ∀ o ∈ L.stack t, ∀ o' ∈ L.stack t', o.number ≠ o'.number
  done : (L.out.map fun c => c.number).Nodup
  openDone : ∀ t, ∀ o ∈ L.stack t, ∀ c ∈ L.out, o.number ≠ c.number

namespace Ledger.Distinct

theorem empty : Distinct .empty where
  below := fun _ _ ho => absurd ho List.not_mem_nil
  belowDone := fun _ hc => absurd hc List.not_mem_nil
  stack := fun _ => List.nodup_nil
  apart := fun _ _ _ _ ho => absurd ho List.not_mem_nil
  done := List.nodup_nil
  openDone := fun _ _ ho => absurd ho List.not_mem_nil

theorem enrol (h : L.Distinct) {L' : Ledger} {tid : UInt64} (ha : L.enrol tid = some L') :
    L'.Distinct := by
  obtain ⟨hnext, hstack, hout⟩ := enrol_next ha
  exact ⟨by rw [hstack, hnext]; exact h.below, by rw [hout, hnext]; exact h.belowDone,
    by rw [hstack]; exact h.stack, by rw [hstack]; exact h.apart, by rw [hout]; exact h.done,
    by rw [hstack, hout]; exact h.openDone⟩

/-- The call an enter opens draws its numbers, or has them from the call around it. -/
theorem opened (off : Int64) (e : SpanEvent) (h : ∀ o ∈ calls, o.Below L.next) :
    (Ledger.opened off e calls L.next).Below ((Ledger.opened off e calls L.next).number + 1) := by
  cases calls with
  | nil =>
      refine ⟨Nat.lt_succ_self _, fun p hp => ?_, Nat.lt_succ_of_lt (Nat.lt_succ_self _)⟩
      cases hp
  | cons o calls =>
      have ho := (h o List.mem_cons_self).mono (Nat.le_succ L.next)
      refine ⟨Nat.lt_succ_self _, fun p hp => ?_, ho.root⟩
      obtain rfl := Option.some.inj hp
      exact ho.number

theorem enter (h : L.Distinct) (off : Int64) (e : SpanEvent) : (L.enter off e).Distinct := by
  unfold Ledger.enter
  dsimp only
  split
  · exact h
  have hbelow := opened off e (h.below e.tid)
  have hle := (opened_number off e (L.stack e.tid) L.next).1
  generalize Ledger.opened off e (L.stack e.tid) L.next = o at hbelow hle
  have hnext : L.next ≤ o.number + 1 := Nat.le_succ_of_le hle
  -- the calls of the new ledger are the old ones and `o`
  have hmem : ∀ t, ∀ o' ∈ update L.stack e.tid (o :: L.stack e.tid) t,
      (t = e.tid ∧ o' = o) ∨ o' ∈ L.stack t := by
    intro t o' ho'
    by_cases ht : t = e.tid
    · subst ht
      rw [update_self] at ho'
      exact (List.mem_cons.mp ho').imp_left fun heq => ⟨rfl, heq⟩
    · rw [update_of_ne ht] at ho'
      exact .inr ho'
  have hnew : ∀ t, ∀ o' ∈ L.stack t, o'.number < o.number :=
    fun t o' ho' => (h.below t o' ho').number.trans_le hle
  have hnewDone : ∀ c ∈ L.out, c.number < o.number :=
    fun c hc => (h.belowDone c hc).number.trans_le hle
  refine ⟨fun t o' ho' => ?_, fun c hc => (h.belowDone c hc).mono hnext, fun t => ?_,
    fun t t' htt' a ha b hb => ?_, h.done, fun t a ha c hc => ?_⟩
  · rcases hmem t o' ho' with ⟨-, rfl⟩ | ho'
    · exact hbelow
    · exact (h.below t o' ho').mono hnext
  · dsimp only
    by_cases ht : t = e.tid
    · subst ht
      rw [update_self, List.map_cons, List.nodup_cons]
      refine ⟨fun hin => ?_, h.stack _⟩
      obtain ⟨o', ho', heq⟩ := List.mem_map.mp hin
      exact (hnew _ o' ho').ne heq
    · rw [update_of_ne ht]
      exact h.stack t
  · rcases hmem t a ha with ⟨rfl, rfl⟩ | hold <;> rcases hmem t' b hb with ⟨rfl, rfl⟩ | hold'
    · exact absurd rfl htt'
    · exact (hnew t' b hold').ne'
    · exact (hnew t a hold).ne
    · exact h.apart t t' htt' a hold b hold'
  · rcases hmem t a ha with ⟨-, rfl⟩ | ha
    · exact (hnewDone c hc).ne'
    · exact h.openDone t a ha c hc

theorem exit (h : L.Distinct) (off : Int64) (e : SpanEvent) : (L.exit off e).Distinct := by
  unfold Ledger.exit
  split
  · exact h
  rename_i o rest hcalls
  have ho : o ∈ L.stack e.tid := hcalls ▸ List.mem_cons_self
  have hsub : ∀ t, (update L.stack e.tid rest t).Sublist (L.stack t) := by
    intro t
    by_cases ht : t = e.tid
    · subst ht
      rw [update_self, hcalls]
      exact List.sublist_cons_self o rest
    · rw [update_of_ne ht]
  have hdone : ∀ c ∈ L.out ++ [(⟨o, e.tid, unixNs off e⟩ : DoneCall)],
      c ∈ L.out ∨ c.toOpenCall = o := by
    intro c hc
    rcases List.mem_append.mp hc with hc | hc
    · exact .inl hc
    · exact .inr (by rw [List.mem_singleton.mp hc])
  -- the call taken from the stack is not among those left on it
  have hleft : ∀ t, ∀ a ∈ update L.stack e.tid rest t, a.number ≠ o.number := by
    intro t a ha
    by_cases ht : t = e.tid
    · subst ht
      rw [update_self] at ha
      have hnodup := h.stack e.tid
      rw [hcalls, List.map_cons, List.nodup_cons] at hnodup
      exact fun heq => hnodup.1 (heq ▸ List.mem_map_of_mem ha)
    · exact h.apart t e.tid ht a ((hsub t).subset ha) o ho
  refine ⟨fun t a ha => h.below t a ((hsub t).subset ha), fun c hc => ?_,
    fun t => (h.stack t).sublist ((hsub t).map _),
    fun t t' htt' a ha b hb => h.apart t t' htt' a ((hsub t).subset ha) b ((hsub t').subset hb),
    ?_, fun t a ha c hc => ?_⟩
  · rcases hdone c hc with hc | rfl
    · exact h.belowDone c hc
    · exact h.below e.tid _ ho
  · rw [List.map_append, List.nodup_append]
    refine ⟨h.done, List.nodup_singleton _, fun m hm n hn => ?_⟩
    obtain ⟨c, hc, rfl⟩ := List.mem_map.mp hm
    rw [List.mem_singleton.mp hn]
    exact (h.openDone e.tid o ho c hc).symm
  · rcases hdone c hc with hc | rfl
    · exact h.openDone t a ((hsub t).subset ha) c hc
    · exact hleft t a ha

theorem step (h : L.Distinct) (off : Int64) (e : SpanEvent) : (L.step off e).Distinct := by
  unfold Ledger.step
  cases ha : L.enrol e.tid with
  | none => exact h
  | some L' =>
      dsimp only
      split
      · exact (h.enrol ha).enter off e
      · exact (h.enrol ha).exit off e

/-- **In every ledger a number belongs to one call.** -/
theorem run (off : Int64) (ev : List SpanEvent) : (Ledger.run off ev).Distinct := by
  induction ev using List.reverseRecOn with
  | nil => exact empty
  | append_singleton ev e ih =>
      rw [run_concat]
      exact ih.step off e

end Ledger.Distinct

end

/-! ### Ids -/

theorem putU64Be_getElem? (v : UInt64) {i : Nat} (hi : i < 8) :
    (putU64Be v)[i]? = some (v >>> UInt64.ofNat (56 - 8 * i)).toUInt8 := by
  rw [putU64Be, List.getElem?_map, List.getElem?_range hi, Option.map_some]

theorem byte_toNat (v : UInt64) {k : Nat} (hk : k < 64) :
    (v >>> UInt64.ofNat k).toUInt8.toNat = v.toNat / 2 ^ k % 256 := by
  have hlt : k < UInt64.size := hk.trans (by decide)
  rw [UInt64.toNat_toUInt8, UInt64.toNat_shiftRight, UInt64.toNat_ofNat_of_lt' hlt,
    Nat.mod_eq_of_lt hk, Nat.shiftRight_eq_div_pow]

theorem putU64Be_injective : Function.Injective putU64Be := by
  intro v w h
  have hbyte (i : Nat) (hi : i < 8) :
      v.toNat / 2 ^ (56 - 8 * i) % 256 = w.toNat / 2 ^ (56 - 8 * i) % 256 := by
    have hget := putU64Be_getElem? v hi
    rw [h, putU64Be_getElem? w hi] at hget
    rw [← byte_toNat v (by omega), ← byte_toNat w (by omega), Option.some.inj hget]
  have hv := v.toNat_lt
  have hw := w.toNat_lt
  have h0 := hbyte 0 (by decide)
  have h1 := hbyte 1 (by decide)
  have h2 := hbyte 2 (by decide)
  have h3 := hbyte 3 (by decide)
  have h4 := hbyte 4 (by decide)
  have h5 := hbyte 5 (by decide)
  have h6 := hbyte 6 (by decide)
  have h7 := hbyte 7 (by decide)
  refine UInt64.toNat_inj.mp ?_
  simp only [Nat.mul_zero, Nat.mul_one, Nat.reduceMul, Nat.reduceSub, Nat.reducePow] at *
  omega

/-- The ids with distinct numbers are distinct. -/
theorem idOf_injOn (seed : UInt64) : Set.InjOn (idOf seed) {n | n < 2 ^ 64} :=
  fun _ hm _ hn h => word_injOn seed hm hn (putU64Be_injective h)

/-- Slots that hold nothing. -/
def blankSlots : Nat → TidSlot := fun _ => ⟨0, 0, [], fun _ => ⟨[], [], false, [], 0, 0⟩⟩

/-- A stream in memory draws fewer than 2⁶⁴ words. -/
theorem next_run_le (off : Int64) {ev : List SpanEvent} (h : Addressable ev) :
    (Ledger.run off ev).next ≤ 2 ^ 64 := by
  have hrep : Represents 0 0 (.start blankSlots 0) .empty := represents_start blankSlots
  have hle : (Ledger.run off ev).next ≤ 0 + 3 * ev.length := (run_words hrep ev).2.2
  unfold Addressable at h
  omega

/-- **Span ids are distinct.**  Whatever the seed, the stream and what earlier calls left in the
slots, the words drawn in one call of `otlp_traces_assemble` are pairwise distinct; every span id is
one of them and every trace id is two of them, written out; no two spans have the same span id,
and a parent id is the span id of at most one span. -/
theorem span_ids_distinct (slots : Nat → TidSlot) (ev : List SpanEvent) (off : Int64)
    (seed : UInt64) (maxOut : Nat) (hmem : Addressable ev) :
    (drawnWords slots ev off seed maxOut).Nodup ∧
      (∀ s ∈ otlpTracesAssemble slots ev off seed maxOut,
        (∃ w ∈ drawnWords slots ev off seed maxOut, s.spanId = putU64Be w) ∧
        ∃ hi ∈ drawnWords slots ev off seed maxOut, ∃ lo ∈ drawnWords slots ev off seed maxOut,
          s.traceId = putU64Be hi ++ putU64Be lo) ∧
      ((otlpTracesAssemble slots ev off seed maxOut).map Span.spanId).Nodup ∧
      ∀ c ∈ otlpTracesAssemble slots ev off seed maxOut,
        ((otlpTracesAssemble slots ev off seed maxOut).map Span.spanId).count c.parentSpanId ≤ 1 := by
  have hnext := next_run_le off hmem
  have hdistinct := Ledger.Distinct.run off ev
  have hwords : drawnWords slots ev off seed maxOut =
      wordsBetween seed 0 (Ledger.run off ev).next :=
    (run_words (represents_start slots) ev).1
  have hout : otlpTracesAssemble slots ev off seed maxOut =
      ((Ledger.run off ev).out.take maxOut).map (DoneCall.span (idOf seed) (traceOf seed)) :=
    (run_represents slots ev).out
  have hdrawn : ∀ n, n < (Ledger.run off ev).next →
      word seed n ∈ drawnWords slots ev off seed maxOut := by
    intro n hn
    rw [hwords, wordsBetween, Nat.sub_zero, ← List.range_eq_range']
    exact List.mem_map_of_mem (List.mem_range.mpr hn)
  have hids : ((otlpTracesAssemble slots ev off seed maxOut).map Span.spanId).Nodup := by
    rw [hout, List.map_map]
    have hnumbers : (((Ledger.run off ev).out.take maxOut).map fun c => c.number).Nodup :=
      hdistinct.done.sublist ((List.take_sublist _ _).map _)
    have hnodup := hnumbers.map_on fun m hm n hn h => idOf_injOn seed ?_ ?_ h
    · rwa [List.map_map] at hnodup
    · obtain ⟨c, hc, rfl⟩ := List.mem_map.mp hm
      exact (hdistinct.belowDone c (List.mem_of_mem_take hc)).number.trans_le hnext
    · obtain ⟨c, hc, rfl⟩ := List.mem_map.mp hn
      exact (hdistinct.belowDone c (List.mem_of_mem_take hc)).number.trans_le hnext
  refine ⟨?_, fun s hs => ?_, hids, fun c _ => List.nodup_iff_count_le_one.mp hids _⟩
  · rw [hwords, wordsBetween, Nat.sub_zero, ← List.range_eq_range']
    refine List.nodup_range.map_on fun m hm n hn h => word_injOn seed ?_ ?_ h
    · exact (List.mem_range.mp hm).trans_le hnext
    · exact (List.mem_range.mp hn).trans_le hnext
  · rw [hout] at hs
    obtain ⟨c, hc, rfl⟩ := List.mem_map.mp hs
    have hbelow := hdistinct.belowDone c (List.mem_of_mem_take hc)
    exact ⟨⟨_, hdrawn _ hbelow.number, rfl⟩, _, hdrawn _ (Nat.lt_of_succ_lt hbelow.root), _,
      hdrawn _ hbelow.root, rfl⟩

/-- A call inside another one. -/
def insideCall : List SpanEvent := [⟨0, 1, 10, 7⟩, ⟨0, 2, 20, 7⟩, ⟨1, 2, 30, 7⟩, ⟨1, 1, 40, 7⟩]

theorem span_ids_distinct_insideCall :
    Addressable insideCall ∧ (otlpTracesAssemble blankSlots insideCall 0 1 2).length = 2 ∧
      (drawnWords blankSlots insideCall 0 1 2).Nodup ∧
      ((otlpTracesAssemble blankSlots insideCall 0 1 2).map Span.spanId).Nodup :=
  have h := span_ids_distinct blankSlots insideCall 0 1 2 (by decide)
  ⟨by decide, by decide, h.1, h.2.2.1⟩

end SpinelEbpf.Otlp.Traces

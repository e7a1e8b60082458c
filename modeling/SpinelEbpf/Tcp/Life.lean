import SpinelEbpf.Tcp.Reply

/-!
# Tcp — the life of a connection

Packets are processed one at a time; between two packets a timer or the LRU policy may delete an
entry.  An entry's life is a stretch of such a run in which its key is never without an entry.

Everything about lives follows from two facts about a reply: the entry it was built from allows it
(`Allows`), and the entry it leaves pins its numbers (`Pinned`).  An entry only ever allows less as
it moves on, so the numbers of an early reply bind every later one (`slice_lives`).

The numbers of a reply are those its receiver reads, behind an IP header of 20 bytes.  The builders
put them there only if the packet had no IP options (`Step.Plain`); a FIN repeated with options is
answered with other numbers (`optioned_fin_differs`).
-/

namespace SpinelEbpf.Tcp

open Function

/-! ### Runs -/

/-- What happens to the connections: a packet, under the helpers of its moment, or a deletion. -/
inductive Event where
  | packet (h : Helpers) (f : Frame)
  | delete (k : Key)

/-- One event, with the connections before and after. -/
structure Step where
  before : Conntab
  event : Event
  after : Conntab

/-- The connections after an event. -/
def next (tab : Conntab) : Event → Conntab
  | .packet h f => (sliceMain h tab f).2
  | .delete k => update tab k none

/-- The steps of a run. -/
def trace : Conntab → List Event → List Step
  | _, [] => []
  | tab, e :: es => ⟨tab, e, next tab e⟩ :: trace (next tab e) es

/-- The step is the packet `f`, for the entry `k`, processed with verdict `v`. -/
def Step.Is (s : Step) (k : Key) (h : Helpers) (f : Frame) (v : Verdict) : Prop :=
  s.event = .packet h f ∧ connKey f (tcpOffset f) = k ∧ (sliceMain h s.before f).1 = v

/-- The step answers a packet for `k` with a reply of this kind and these numbers, read in the frame
that is sent, whose IP header says that it has 20 bytes. -/
def Step.Sends (s : Step) (k : Key) (kind : Reply) (seq ackSeq : BitVec 32) : Prop :=
  ∃ h f out, s.Is k h f (.tx kind out) ∧ out.be32 38 = seq ∧ out.be32 42 = ackSeq

/-- A packet that is answered from the entry `k` has no IP options. -/
def Step.Plain (s : Step) (k : Key) : Prop :=
  ∀ h f kind out, s.Is k h f (.tx kind out) → kind ≠ .synack → ihl f = 20

/-! ### What a step does to one entry -/

/-- What a reply served from the entry `st` leaves of it, for a reply with these numbers. -/
def Pinned (kind : Reply) (seq ackSeq : BitVec 32) (st' : Conn) : Prop :=
  match kind with
  | .synack => True
  | .response => st'.state = .respSent ∧ st'.serverSeq = seq + 42 ∧ st'.clientSeq = ackSeq
  | .finack => st'.state = .closed ∧ st'.serverSeq = seq ∧ st'.clientSeq = ackSeq

/-- The replies an entry allows from now on. -/
def Allows (st : Conn) (kind : Reply) (seq ackSeq : BitVec 32) : Prop :=
  match kind, st.state with
  | .synack, _ => True
  | .response, .estab => seq = st.serverSeq
  | .response, .respSent => seq + 42 = st.serverSeq ∧ ackSeq = st.clientSeq
  | .response, .closed => False
  | .finack, .estab => seq = st.serverSeq + 42
  | .finack, .respSent => seq = st.serverSeq
  | .finack, .closed => seq = st.serverSeq ∧ ackSeq = st.clientSeq

/-- The state stays or takes one step forward. -/
def Forward (a b : ConnState) : Prop :=
  b = a ∨ (a = .estab ∧ b = .respSent) ∨ (a = .respSent ∧ b = .closed)

variable {f out : Frame} {h : Helpers} {tcp n : Nat} {st st' : Conn} {v : Verdict}
  {seq ackSeq : BitVec 32} {kind : Reply} {s : Step} {k : Key}

theorem Served.forward (hs : Served h f tcp n st v st') : Forward st.state st'.state := by
  cases hs with
  | dropped | aborted | respondAgain _ _ _ | closeAgain _ _ => exact .inl rfl
  | respond hs _ _ => exact .inr (.inl ⟨hs, rfl⟩)
  | close hs _ => exact .inr (.inr ⟨hs, rfl⟩)

/-- What is allowed after a packet was allowed before it. -/
theorem Served.allows (hs : Served h f tcp n st v st') (ha : Allows st' kind seq ackSeq) :
    Allows st kind seq ackSeq := by
  cases hs with
  | dropped | aborted | respondAgain _ _ _ | closeAgain _ _ => exact ha
  | respond hs _ _ =>
      cases kind with
      | synack => trivial
      | response =>
          simp only [Allows, hs] at ha ⊢
          bv_omega
      | finack =>
          simp only [Allows, hs] at ha ⊢
          bv_omega
  | close hs _ =>
      cases kind with
      | synack => trivial
      | response => simp only [Allows] at ha
      | finack =>
          simp only [Allows, hs] at ha ⊢
          exact ha.1

/-- A reply is allowed by the entry it is served from and pinned by the entry it leaves. -/
theorem Served.sends (hs : Served h f 34 n st v st') (hv : v = .tx kind out) :
    Allows st kind (out.be32 38) (out.be32 42) ∧ Pinned kind (out.be32 38) (out.be32 42) st' := by
  cases hs with
  | dropped | aborted => cases hv
  | respond hs _ ho =>
      cases hv
      obtain ⟨hseq, hack⟩ := answerData_numbers (Nat.le_refl 34) ho
      simp only [Allows, Pinned, hs, hseq, hack, true_and, and_true]
      bv_omega
  | respondAgain hs _ ho =>
      cases hv
      obtain ⟨hseq, hack⟩ := answerData_numbers (Nat.le_refl 34) ho
      simp only [Allows, Pinned, hs, hseq, hack, true_and, and_true]
      bv_omega
  | close hs ho =>
      cases hv
      obtain ⟨hseq, hack⟩ := answerFin_numbers (Nat.le_refl 34) ho
      simp only [Allows, Pinned, hs, hseq, hack, and_self]
  | closeAgain hs ho =>
      cases hv
      obtain ⟨hseq, hack⟩ := answerFin_numbers (Nat.le_refl 34) ho
      simp only [Allows, Pinned, hs, hseq, hack, and_self]

/-- A reply that leaves an entry is answered from a request or in answer to a FIN. -/
theorem Served.state (hs : Served h f tcp n st v st') (hv : v = .tx kind out) :
    (kind = .response ∧ (st.state = .estab ∨ st.state = .respSent) ∧ Requests f tcp n) ∨
      (kind = .finack ∧ (st.state = .respSent ∨ st.state = .closed)) := by
  cases hs with
  | dropped | aborted => cases hv
  | respond hs hr _ =>
      cases hv
      exact .inl ⟨rfl, .inl hs, hr⟩
  | respondAgain hs hr _ =>
      cases hv
      exact .inl ⟨rfl, .inr hs, hr⟩
  | close hs _ =>
      cases hv
      exact .inr ⟨rfl, .inl hs⟩
  | closeAgain hs _ =>
      cases hv
      exact .inr ⟨rfl, .inr hs⟩

/-- A packet's entry is the one it finds, or the one a valid cookie creates. -/
def Found (s : Step) (k : Key) (h : Helpers) (f : Frame) (st : Conn) : Prop :=
  s.before k = some st ∨
    s.before k = none ∧ st = newConn f (tcpOffset f) ∧ ack f (tcpOffset f) = true ∧
      0 ≤ h.checkSyncookie f (tcpOffset f)

/-- What a step can do to the entry `k`. -/
inductive Effect (s : Step) (k : Key) : Prop where
  | kept (he : s.after k = s.before k)
      (hq : ∀ kind seq ackSeq, s.Sends k kind seq ackSeq → kind = .synack)
  | removed (he : s.after k = none)
      (hq : ∀ kind seq ackSeq, s.Sends k kind seq ackSeq → kind = .synack)
      (hr : ∀ h f, s.event = .packet h f → rst f (tcpOffset f) = true)
  | served {h : Helpers} {f : Frame} {v : Verdict} {st st' : Conn} (hi : s.Is k h f v)
      (hf : Found s k h f st)
      (hs : Served h f (tcpOffset f) (payloadLen f) st v st') (he : s.after k = some st')

/-- A step that sends nothing, or nothing but a SYN-ACK, is quiet for every entry. -/
theorem Step.quiet (he : s.event = .packet h f)
    (hv : ∀ kind out, (sliceMain h s.before f).1 = .tx kind out → kind = .synack) :
    ∀ kind seq ackSeq, s.Sends k kind seq ackSeq → kind = .synack := by
  rintro kind _ _ ⟨h', f', out, ⟨he', -, hv'⟩, -, -⟩
  obtain ⟨rfl, rfl⟩ := Event.packet.inj (he.symm.trans he')
  exact hv kind out hv'

/-- A packet for another key sends nothing for this one. -/
theorem Step.quiet_of_ne (he : s.event = .packet h f) (hne : connKey f (tcpOffset f) ≠ k) :
    ∀ kind seq ackSeq, s.Sends k kind seq ackSeq → kind = .synack := by
  rintro kind _ _ ⟨h', f', out, ⟨he', hk, -⟩, -, -⟩
  obtain ⟨rfl, rfl⟩ := Event.packet.inj (he.symm.trans he')
  exact absurd hk hne

/-- **One packet, one entry.** -/
theorem effect_packet (tab : Conntab) (h : Helpers) (f : Frame) (k : Key) :
    Effect ⟨tab, .packet h f, (sliceMain h tab f).2⟩ k := by
  have hh := sliceMain_handled h tab f
  generalize hv : (sliceMain h tab f).1 = v, (sliceMain h tab f).2 = tab' at hh
  cases hh with
  | passed | refused =>
      exact .kept rfl (Step.quiet rfl fun kind out ho => by rw [hv] at ho; cases ho)
  | syn _ => exact .kept rfl (Step.quiet rfl fun kind out ho => (answerSyn_tx (hv.symm.trans ho)).1)
  | reset _ hr =>
      have hsilent : ∀ kind out, (sliceMain h tab f).1 = .tx kind out → kind = .synack := by
        intro kind out ho
        rw [hv] at ho
        cases ho
      by_cases hk : connKey f (tcpOffset f) = k
      · subst hk
        refine .removed (update_self ..) (Step.quiet rfl hsilent) fun h' f' he => ?_
        obtain ⟨rfl, rfl⟩ := Event.packet.inj he
        exact hr
      · exact .kept (update_of_ne (Ne.symm hk) ..) (Step.quiet rfl hsilent)
  | known _ hf hs =>
      by_cases hk : connKey f (tcpOffset f) = k
      · subst hk
        exact .served ⟨rfl, rfl, hv⟩ (.inl hf) hs (update_self ..)
      · exact .kept (update_of_ne (Ne.symm hk) ..) (Step.quiet_of_ne rfl hk)
  | opened _ hf ha hc hs =>
      by_cases hk : connKey f (tcpOffset f) = k
      · subst hk
        exact .served ⟨rfl, rfl, hv⟩ (.inr ⟨hf, rfl, ha, hc⟩) hs (update_self ..)
      · exact .kept (update_of_ne (Ne.symm hk) ..) (Step.quiet_of_ne rfl hk)

/-- **One event, one entry.** -/
theorem effect_next (tab : Conntab) (e : Event) (k : Key) : Effect ⟨tab, e, next tab e⟩ k := by
  cases e with
  | packet h f => exact effect_packet tab h f k
  | delete k' =>
      have hq : ∀ kind seq ackSeq,
          Step.Sends ⟨tab, .delete k', update tab k' none⟩ k kind seq ackSeq →
            kind = .synack := by
        rintro _ _ _ ⟨_, _, _, ⟨he, -, -⟩, -, -⟩
        cases he
      by_cases hk : k' = k
      · subst hk
        exact .removed (update_self ..) hq (by intro h f he; cases he)
      · exact .kept (update_of_ne (Ne.symm hk) ..) hq

/-! ### What every step keeps to -/

/-- An entry comes only from a packet with ACK whose cookie is valid. -/
def OpenedByCookie (s : Step) (k : Key) : Prop :=
  s.before k = none → s.after k ≠ none → ∃ h f v, s.Is k h f v ∧
    ack f (tcpOffset f) = true ∧ 0 ≤ h.checkSyncookie f (tcpOffset f)

/-- An entry opens in the first state or, answered by the same packet, in the second, and moves
on by one state at a time. -/
def MovesForward (s : Step) (k : Key) : Prop :=
  ∀ st', s.after k = some st' →
    (s.before k = none → Forward .estab st'.state) ∧
      ∀ st, s.before k = some st → Forward st.state st'.state

/-- A response answers a request on an entry that is not closed, a FIN-ACK goes to an entry that
has been sent its response. -/
def RepliesInState (s : Step) (k : Key) : Prop :=
  (∀ h f out, s.Is k h f (.tx .response out) → Requests f (tcpOffset f) (payloadLen f) ∧
    ∀ st, s.before k = some st → st.state = .estab ∨ st.state = .respSent) ∧
  ∀ h f out, s.Is k h f (.tx .finack out) →
    ∃ st, s.before k = some st ∧ (st.state = .respSent ∨ st.state = .closed)

/-- A packet without RST that is dropped or aborted leaves an entry that was there as it was. -/
def FailureKeeps (s : Step) (k : Key) : Prop :=
  ∀ h f, s.event = .packet h f → rst f (tcpOffset f) = false →
    (sliceMain h s.before f).1 = .drop ∨ (sliceMain h s.before f).1 = .aborted →
      ∀ st, s.before k = some st → s.after k = some st

theorem Effect.openedByCookie (e : Effect s k) : OpenedByCookie s k := by
  intro hb ha
  cases e with
  | kept he _ => exact absurd (he.trans hb) ha
  | removed he _ _ => exact absurd he ha
  | served hi hf _ _ =>
      rcases hf with hf | ⟨-, -, hack, hc⟩
      · rw [hb] at hf
        cases hf
      · exact ⟨_, _, _, hi, hack, hc⟩

theorem Effect.movesForward (e : Effect s k) : MovesForward s k := by
  intro st' ha
  cases e with
  | kept he _ =>
      rw [he] at ha
      refine ⟨fun hb => ?_, fun st hb => ?_⟩
      · rw [hb] at ha
        cases ha
      · rw [hb] at ha
        cases ha
        exact .inl rfl
  | removed he _ _ =>
      rw [he] at ha
      cases ha
  | served _ hf hs he =>
      obtain rfl := Option.some.inj (he.symm.trans ha)
      rcases hf with hf | ⟨hn, rfl, -, -⟩
      · refine ⟨fun hb => ?_, fun st hb => ?_⟩
        · rw [hb] at hf
          cases hf
        · rw [hb] at hf
          cases hf
          exact hs.forward
      · refine ⟨fun _ => hs.forward, fun st hb => ?_⟩
        rw [hb] at hn
        cases hn

/-- A step that sends something other than a SYN-ACK serves its packet. -/
theorem Effect.of_sends (e : Effect s k) (hi : s.Is k h f (.tx kind out)) (hk : kind ≠ .synack) :
    ∃ st st', Found s k h f st ∧
      Served h f (tcpOffset f) (payloadLen f) st (.tx kind out) st' ∧ s.after k = some st' := by
  cases e with
  | kept _ hq => exact absurd (hq _ _ _ ⟨h, f, out, hi, rfl, rfl⟩) hk
  | removed _ hq _ => exact absurd (hq _ _ _ ⟨h, f, out, hi, rfl, rfl⟩) hk
  | served hi' hf hs he =>
      obtain ⟨rfl, rfl⟩ := Event.packet.inj (hi'.1.symm.trans hi.1)
      obtain rfl := hi'.2.2.symm.trans hi.2.2
      exact ⟨_, _, hf, hs, he⟩

theorem Effect.repliesInState (e : Effect s k) : RepliesInState s k := by
  refine ⟨fun h f out hi => ?_, fun h f out hi => ?_⟩
  · obtain ⟨st, st', hf, hs, -⟩ := e.of_sends hi (by simp)
    rcases hs.state rfl with ⟨-, hst, hr⟩ | ⟨hk, -⟩
    · refine ⟨hr, fun st₀ hb => ?_⟩
      rcases hf with hf | ⟨hn, -⟩
      · rw [hb] at hf
        cases hf
        exact hst
      · rw [hb] at hn
        cases hn
    · cases hk
  · obtain ⟨st, st', hf, hs, -⟩ := e.of_sends hi (by simp)
    rcases hs.state rfl with ⟨hk, -⟩ | ⟨-, hst⟩
    · cases hk
    · rcases hf with hf | ⟨-, rfl, -⟩
      · exact ⟨st, hf, hst⟩
      · rcases hst with hst | hst <;> cases hst

theorem Effect.failureKeeps (e : Effect s k) : FailureKeeps s k := by
  intro h f hev hrst hfail st hb
  cases e with
  | kept he _ => exact he.trans hb
  | removed _ _ hr => exact absurd (hr h f hev) (by simp [hrst])
  | served hi hf hs he =>
      obtain ⟨rfl, rfl⟩ := Event.packet.inj (hi.1.symm.trans hev)
      rcases hf with hf | ⟨hn, -⟩
      · obtain rfl := Option.some.inj (hf.symm.trans hb)
        rw [hi.2.2] at hfail
        cases hs with
        | dropped | aborted => exact he
        | respond _ _ _ | respondAgain _ _ _ | close _ _ | closeAgain _ _ => simp at hfail
      · rw [hb] at hn
        cases hn

/-! ### What a whole life keeps to -/

/-- Two replies of one life fit together. -/
def Agree : Reply → BitVec 32 → BitVec 32 → Reply → BitVec 32 → BitVec 32 → Prop
  | .response, n₁, a₁, .response, n₂, a₂ => n₁ = n₂ ∧ a₁ = a₂
  | .finack, n₁, a₁, .finack, n₂, a₂ => n₁ = n₂ ∧ a₁ = a₂
  | .response, n₁, _, .finack, n₂, _ => n₂ = n₁ + 42
  | .finack, n₁, _, .response, n₂, _ => n₁ = n₂ + 42
  | _, _, _, _, _, _ => True

theorem Agree.symm {k₁ k₂ : Reply} {n₁ a₁ n₂ a₂ : BitVec 32} (h : Agree k₁ n₁ a₁ k₂ n₂ a₂) :
    Agree k₂ n₂ a₂ k₁ n₁ a₁ := by
  cases k₁ <;> cases k₂ <;> simp only [Agree] at h ⊢
  · exact ⟨h.1.symm, h.2.symm⟩
  · exact h
  · exact h
  · exact ⟨h.1.symm, h.2.symm⟩

theorem Agree.refl (kind : Reply) (n a : BitVec 32) : Agree kind n a kind n a := by
  cases kind <;> simp [Agree]

/-- The entry a reply leaves allows only what fits that reply. -/
theorem Pinned.agree {k₁ k₂ : Reply} {n₁ a₁ n₂ a₂ : BitVec 32} (hp : Pinned k₁ n₁ a₁ st)
    (ha : Allows st k₂ n₂ a₂) : Agree k₁ n₁ a₁ k₂ n₂ a₂ := by
  cases k₁ with
  | synack => cases k₂ <;> trivial
  | response =>
      obtain ⟨hst, hs, hc⟩ := hp
      cases k₂ with
      | synack => trivial
      | response =>
          simp only [Allows, hst, hs, hc] at ha
          exact ⟨by bv_omega, ha.2.symm⟩
      | finack =>
          simp only [Allows, hst, hs] at ha
          exact ha
  | finack =>
      obtain ⟨hst, hs, hc⟩ := hp
      cases k₂ with
      | synack => trivial
      | response => simp only [Allows, hst] at ha
      | finack =>
          simp only [Allows, hst, hs, hc] at ha
          exact ⟨ha.1.symm, ha.2.symm⟩

/-- A reply is allowed by the entry it found, and leaves an entry that pins it. -/
theorem Effect.sends (e : Effect s k) (hplain : s.Plain k) (hs : s.Sends k kind seq ackSeq)
    (hk : kind ≠ .synack) :
    (∀ st, s.before k = some st → Allows st kind seq ackSeq) ∧
      ∃ st', s.after k = some st' ∧ Pinned kind seq ackSeq st' := by
  obtain ⟨h, f, out, hi, rfl, rfl⟩ := hs
  obtain ⟨st, st', hf, hserved, he⟩ := e.of_sends hi hk
  rw [tcpOffset, hplain h f kind out hi hk] at hserved
  obtain ⟨ha, hp⟩ := hserved.sends rfl
  refine ⟨fun st₀ hb => ?_, st', he, hp⟩
  rcases hf with hf | ⟨hn, -⟩
  · obtain rfl := Option.some.inj (hf.symm.trans hb)
    exact ha
  · rw [hb] at hn
    cases hn

/-- What an entry allows after a step it allowed before. -/
theorem Effect.allows (e : Effect s k) (hb : s.before k = some st) (ha : s.after k = some st')
    (h : Allows st' kind seq ackSeq) : Allows st kind seq ackSeq := by
  cases e with
  | kept he _ =>
      rw [he, hb] at ha
      cases ha
      exact h
  | removed he _ _ =>
      rw [he] at ha
      cases ha
  | served _ hf hs he =>
      obtain rfl := Option.some.inj (he.symm.trans ha)
      rcases hf with hf | ⟨hn, -⟩
      · obtain rfl := Option.some.inj (hf.symm.trans hb)
        exact hs.allows h
      · rw [hb] at hn
        cases hn

/-- The steps in which the entry `k` is never missing afterwards. -/
def Alive (k : Key) (life : List Step) : Prop := ∀ s ∈ life, s.after k ≠ none

/-- Every reply of a life is one the entry at its start allows. -/
theorem allows_of_alive {k : Key} : ∀ (events : List Event) (tab : Conntab) (st : Conn),
    tab k = some st → Alive k (trace tab events) → (∀ s ∈ trace tab events, s.Plain k) →
      ∀ s ∈ trace tab events, ∀ kind seq ackSeq, kind ≠ .synack → s.Sends k kind seq ackSeq →
        Allows st kind seq ackSeq
  | [], _, _, _, _, _, s, hs => by cases hs
  | e :: es, tab, st, hst, hal, hplain, s, hs => by
      intro kind seq ackSeq hk hsends
      have heff := effect_next tab e k
      obtain ⟨st', hst'⟩ := Option.ne_none_iff_exists'.mp (hal _ List.mem_cons_self)
      rcases List.mem_cons.mp hs with rfl | hs
      · exact (heff.sends (hplain _ List.mem_cons_self) hsends hk).1 st hst
      · have hlater := allows_of_alive es (next tab e) st' hst' (List.forall_mem_of_forall_mem_cons hal)
          (List.forall_mem_of_forall_mem_cons hplain) s hs kind seq ackSeq hk hsends
        exact heff.allows hst hst' hlater

/-- All that two steps send for `k` fits together. -/
def Compatible (k : Key) (s₁ s₂ : Step) : Prop :=
  ∀ k₁ n₁ a₁ k₂ n₂ a₂, s₁.Sends k k₁ n₁ a₁ → s₂.Sends k k₂ n₂ a₂ → Agree k₁ n₁ a₁ k₂ n₂ a₂

theorem Compatible.refl (k : Key) (s : Step) : Compatible k s s := by
  rintro k₁ n₁ a₁ k₂ n₂ a₂ ⟨h, f, out, ⟨he, -, hv⟩, rfl, rfl⟩ ⟨h', f', out', ⟨he', -, hv'⟩, rfl, rfl⟩
  obtain ⟨rfl, rfl⟩ := Event.packet.inj (he.symm.trans he')
  obtain ⟨rfl, rfl⟩ := Verdict.tx.inj (hv.symm.trans hv')
  exact Agree.refl ..

instance compatible_symm (k : Key) : Std.Symm (Compatible k) where
  symm _ _ h _ _ _ _ _ _ h₁ h₂ := (h _ _ _ _ _ _ h₂ h₁).symm

theorem agree_synack (k₁ k₂ : Reply) (n₁ a₁ n₂ a₂ : BitVec 32) (h : k₁ = .synack ∨ k₂ = .synack) :
    Agree k₁ n₁ a₁ k₂ n₂ a₂ := by
  rcases h with rfl | rfl
  · trivial
  · cases k₁ <;> trivial

theorem pairwise_compatible {k : Key} : ∀ (events : List Event) (tab : Conntab),
    Alive k (trace tab events) → (∀ s ∈ trace tab events, s.Plain k) →
      (trace tab events).Pairwise (Compatible k)
  | [], _, _, _ => List.Pairwise.nil
  | e :: es, tab, hal, hplain => by
      have halive : Alive k (trace (next tab e) es) := List.forall_mem_of_forall_mem_cons hal
      have hrest := List.forall_mem_of_forall_mem_cons hplain
      refine List.Pairwise.cons ?_ (pairwise_compatible es (next tab e) halive hrest)
      intro s₂ hs₂ k₁ n₁ a₁ k₂ n₂ a₂ h₁ h₂
      by_cases hk₁ : k₁ = .synack
      · exact agree_synack _ _ _ _ _ _ (.inl hk₁)
      by_cases hk₂ : k₂ = .synack
      · exact agree_synack _ _ _ _ _ _ (.inr hk₂)
      obtain ⟨-, st', hst', hpin⟩ :=
        (effect_next tab e k).sends (hplain _ List.mem_cons_self) h₁ hk₁
      exact hpin.agree (allows_of_alive es _ st' hst' halive hrest s₂ hs₂ k₂ n₂ a₂ hk₂ h₂)

/-- A step from no entry, or from one without a response, leaves it so or sends the response. -/
theorem Effect.responds (e : Effect s k) (hb : ∀ st, s.before k = some st → st.state = .estab)
    (ha : s.after k = some st') :
    st'.state = .estab ∨ ∃ seq ackSeq, s.Sends k .response seq ackSeq := by
  cases e with
  | kept he _ => exact .inl (hb st' (he.symm.trans ha))
  | removed he _ _ =>
      rw [he] at ha
      cases ha
  | @served _ _ _ st _ hi hf hs he =>
      obtain rfl := Option.some.inj (he.symm.trans ha)
      have hst : st.state = .estab := by
        rcases hf with hf | ⟨-, rfl, -⟩
        · exact hb st hf
        · rfl
      cases hs with
      | dropped | aborted => exact .inl hst
      | respond _ _ _ => exact .inr ⟨_, _, _, _, _, hi, rfl, rfl⟩
      | respondAgain hs _ _ | close hs _ | closeAgain hs _ =>
          rw [hst] at hs
          cases hs

/-- No FIN-ACK without a response before it, from the opening of an entry on. -/
theorem response_of_finack {k : Key} : ∀ (events : List Event) (tab : Conntab),
    (∀ st, tab k = some st → st.state = .estab) → Alive k (trace tab events) →
      ∀ s ∈ trace tab events, ∀ seq ackSeq, s.Sends k .finack seq ackSeq →
        ∃ s' ∈ trace tab events, ∃ seq' ackSeq', s'.Sends k .response seq' ackSeq'
  | [], _, _, _, s, hs => by cases hs
  | e :: es, tab, htab, hal, s, hs => by
      intro seq ackSeq hfin
      have heff := effect_next tab e k
      obtain ⟨st', hst'⟩ := Option.ne_none_iff_exists'.mp (hal _ List.mem_cons_self)
      rcases heff.responds htab hst' with hest | ⟨seq', ackSeq', hresp⟩
      · rcases List.mem_cons.mp hs with rfl | hs
        · obtain ⟨h, f, out, hi, -, -⟩ := hfin
          obtain ⟨st, hb, hst⟩ := heff.repliesInState.2 h f out hi
          rw [htab st hb] at hst
          rcases hst with hst | hst <;> cases hst
        · obtain ⟨s', hs', hresp⟩ := response_of_finack es (next tab e)
            (fun st hst => Option.some.inj (hst'.symm.trans hst) ▸ hest)
            (fun t ht => hal t (List.mem_cons_of_mem _ ht)) s hs seq ackSeq hfin
          exact ⟨s', List.mem_cons_of_mem _ hs', hresp⟩
      · exact ⟨_, List.mem_cons_self, seq', ackSeq', hresp⟩

/-! ### Lives within a run -/

theorem trace_append_inv : ∀ (events : List Event) (tab : Conntab) (l₁ l₂ : List Step),
    trace tab events = l₁ ++ l₂ →
      ∃ es₁ es₂ tab', l₁ = trace tab es₁ ∧ l₂ = trace tab' es₂
  | events, tab, [], l₂, h => ⟨[], events, tab, rfl, h.symm⟩
  | [], _, _ :: _, _, h => by cases h
  | e :: es, tab, s :: l₁, l₂, h => by
      obtain ⟨rfl, htail⟩ := List.cons.inj h
      obtain ⟨es₁, es₂, tab', rfl, rfl⟩ := trace_append_inv es (next tab e) l₁ l₂ htail
      exact ⟨e :: es₁, es₂, tab', rfl, rfl⟩

/-- The replies of one life: all responses alike, all FIN-ACKs alike, 42 further on, and none
before a response. -/
structure Consistent (k : Key) (life : List Step) : Prop where
  responses : ∀ s₁ ∈ life, ∀ s₂ ∈ life, ∀ n₁ a₁ n₂ a₂, s₁.Sends k .response n₁ a₁ →
    s₂.Sends k .response n₂ a₂ → n₁ = n₂ ∧ a₁ = a₂
  finacks : ∀ s₁ ∈ life, ∀ s₂ ∈ life, ∀ n₁ a₁ n₂ a₂, s₁.Sends k .finack n₁ a₁ →
    s₂.Sends k .finack n₂ a₂ → n₁ = n₂ ∧ a₁ = a₂
  advance : ∀ s₁ ∈ life, ∀ s₂ ∈ life, ∀ n₁ a₁ n₂ a₂, s₁.Sends k .response n₁ a₁ →
    s₂.Sends k .finack n₂ a₂ → n₂ = n₁ + 42
  response_first : ∀ s₀ ∈ life.head?, s₀.before k = none → ∀ s ∈ life, ∀ n a,
    s.Sends k .finack n a → ∃ s' ∈ life, ∃ n' a', s'.Sends k .response n' a'

/-- **The slice's state machine.**  In every run, from any connections and under any helpers: each
step opens entries only by a valid cookie, moves them only forward, replies only in the right state
and keeps an entry through a failure; and the replies of every life are consistent in which no
packet with IP options is answered. -/
theorem slice_lives (tab : Conntab) (events : List Event) (k : Key) :
    (∀ s ∈ trace tab events,
      OpenedByCookie s k ∧ MovesForward s k ∧ RepliesInState s k ∧ FailureKeeps s k) ∧
    ∀ pre life post, trace tab events = pre ++ life ++ post → Alive k life →
      (∀ s ∈ life, s.Plain k) → Consistent k life := by
  constructor
  · induction events generalizing tab with
    | nil =>
        intro s hs
        cases hs
    | cons e es ih =>
        intro s hs
        rcases List.mem_cons.mp hs with rfl | hs
        · have heff := effect_next tab e k
          exact ⟨heff.openedByCookie, heff.movesForward, heff.repliesInState, heff.failureKeeps⟩
        · exact ih (next tab e) s hs
  · intro pre life post hsplit hal hplain
    obtain ⟨es, _, _, hpl, -⟩ := trace_append_inv events tab (pre ++ life) post hsplit
    obtain ⟨_, es', tab', -, rfl⟩ := trace_append_inv es tab pre life hpl.symm
    have hall : ∀ s₁ ∈ trace tab' es', ∀ s₂ ∈ trace tab' es', Compatible k s₁ s₂ :=
      fun s₁ h₁ s₂ h₂ => (pairwise_compatible es' tab' hal hplain).forall_of_forall
        (fun s _ => Compatible.refl k s) h₁ h₂
    exact {
      responses := fun s₁ h₁ s₂ h₂ _ _ _ _ hr₁ hr₂ => hall s₁ h₁ s₂ h₂ _ _ _ _ _ _ hr₁ hr₂
      finacks := fun s₁ h₁ s₂ h₂ _ _ _ _ hr₁ hr₂ => hall s₁ h₁ s₂ h₂ _ _ _ _ _ _ hr₁ hr₂
      advance := fun s₁ h₁ s₂ h₂ _ _ _ _ hr₁ hr₂ => hall s₁ h₁ s₂ h₂ _ _ _ _ _ _ hr₁ hr₂
      response_first := by
        intro s₀ hs₀ hnone
        refine response_of_finack es' tab' (fun st hst => ?_) hal
        cases es' with
        | nil => cases hs₀
        | cons e es =>
            obtain rfl := Option.some.inj hs₀
            cases hst.symm.trans hnone }

/-! ### A health check -/

/-- What a step sends: the entry, the kind and the numbers. -/
def Step.reply (s : Step) : Option (Key × Reply × BitVec 32 × BitVec 32) :=
  match s.event with
  | .packet h f =>
    match (sliceMain h s.before f).1 with
    | .tx kind out => some (connKey f (tcpOffset f), kind, out.be32 38, out.be32 42)
    | _ => none
  | .delete _ => none

theorem Step.sends_of_reply (h : s.reply = some (k, kind, seq, ackSeq)) :
    s.Sends k kind seq ackSeq := by
  unfold Step.reply at h
  split at h
  · rename_i hs f he
    split at h
    · rename_i hv
      cases h
      exact ⟨hs, f, _, ⟨he, rfl, hv⟩, rfl, rfl⟩
    · cases h
  · cases h

/-- A packet of the client, with these flags, this sequence number and this payload. -/
def clientFrame (flags seq : Byte) (payload : List Byte) : Frame :=
  .ofBytes ([1, 2, 3, 4, 5, 6, 7, 8, 9, 10, 11, 12, 0x08, 0x00] ++
    [0x45, 0, 0, BitVec.ofNat 8 (40 + payload.length), 0, 0, 0, 0, 64, 6, 0, 0,
      10, 0, 0, 1, 10, 0, 0, 2] ++
    [0x30, 0x39, 0x1f, 0x90, 0, 0, 0, seq, 0, 0, 0, 2, 0x50, flags, 0xff, 0xff, 0, 0, 0, 0] ++
    payload)

/-- Every connection is established and waits for its request. -/
def allEstablished : Conntab := fun _ =>
  some { serverSeq := 1000, clientSeq := 1, mss := 1460, state := .estab }

/-- The request and the client's FIN. -/
def healthCheck : List Event :=
  [.packet plainHelpers (clientFrame 0x18 1 (route ++ List.replicate 30 0x78)),
   .packet plainHelpers (clientFrame 0x11 43 [])]

/-- A life with a response and a FIN-ACK. -/
theorem slice_lives_healthCheck :
    (trace allEstablished healthCheck).map (fun s => s.reply.map fun r => r.2.1) =
        [some .response, some .finack] ∧
      Consistent (connKey (clientFrame 0x11 43 []) 34) (trace allEstablished healthCheck) := by
  refine ⟨by decide, (slice_lives allEstablished healthCheck _).2 [] _ [] (by simp)
    (show ∀ s ∈ trace allEstablished healthCheck, _ from by decide) fun s hs => ?_⟩
  rintro h f kind out ⟨he, -, -⟩ -
  simp only [healthCheck, trace, List.mem_cons, List.not_mem_nil, or_false] at hs
  rcases hs with rfl | rfl
  · obtain ⟨-, rfl⟩ := Event.packet.inj he
    rfl
  · obtain ⟨-, rfl⟩ := Event.packet.inj he
    rfl

/-- The client's FIN, and the same FIN behind one word of IP options. -/
def twoFins : List Event :=
  [.packet plainHelpers (finFrame 0x45 40 []), .packet plainHelpers (finFrame 0x46 44 [1, 1, 1, 0])]

/-- **With options the numbers differ.**  The second FIN-ACK of this life has the ports where the
sequence number is read, and the sequence number where the acknowledgement number is. -/
theorem optioned_fin_differs :
    Alive (connKey (finFrame 0x45 40 []) 34) (trace allAnswered twoFins) ∧
      ¬ Consistent (connKey (finFrame 0x45 40 []) 34) (trace allAnswered twoFins) := by
  refine ⟨show ∀ s ∈ trace allAnswered twoFins, _ from by decide, fun hc => ?_⟩
  have hreplies : (trace allAnswered twoFins).map Step.reply =
      [some (connKey (finFrame 0x45 40 []) 34, .finack, 1000, 2),
        some (connKey (finFrame 0x45 40 []) 34, .finack, 0x1f903039, 1000)] := by
    decide
  obtain ⟨hfirst, hsecond⟩ := List.cons.inj hreplies
  have hsame := hc.finacks _ List.mem_cons_self _ (List.mem_cons_of_mem _ List.mem_cons_self) _ _ _ _
    (Step.sends_of_reply hfirst) (Step.sends_of_reply (List.cons.inj hsecond).1)
  exact absurd hsame (by decide)

end SpinelEbpf.Tcp

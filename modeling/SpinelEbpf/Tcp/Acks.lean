import SpinelEbpf.Tcp.Life

/-!
# Tcp — what a reply acknowledges

The length of a packet's payload is computed from three fields of its headers, and the bytes that
are there end where the frame does.  The program checks that the TCP header is in the frame and
that the total length covers both headers, but never that the frame covers the total length; a
first response or FIN-ACK therefore acknowledges what the headers claim.  A repeated response
acknowledges what the first one did, whatever the packet that asks for it carries.

`acks_present_iff` says exactly when the two agree, and `claimed_payload_acked` is a FIN of
no payload whose ten claimed bytes are acknowledged.
-/

namespace SpinelEbpf.Tcp

/-! ### Payloads -/

/-- The payload bytes that are in the frame: from the end of the TCP header to the end of the
frame, and no further than the total length. -/
def presentLen (f : Frame) : Nat :=
  min f.len (14 + (f.be16 16).toNat) - (tcpOffset f + thl f (tcpOffset f))

/-- The sequence number of a packet. -/
def seqOf (f : Frame) : BitVec 32 := f.be32 (tcpOffset f + 4)

/-- The acknowledgement number of the reply that was built in a packet's frame. -/
def ackIn (f out : Frame) : BitVec 32 := out.be32 (tcpOffset f + 8)

/-- The entry a packet is served on: its connection's, or the one that its cookie creates. -/
def entry (tab : Conntab) (f : Frame) : Conn :=
  (tab (connKey f (tcpOffset f))).getD (newConn f (tcpOffset f))

/-- The headers of a packet that is served: both are in the frame, and the total length covers
them. -/
structure Measured (f : Frame) : Prop where
  parses : parses f = true
  inFrame : tcpOffset f + thl f (tcpOffset f) ≤ f.len
  covered : ihl f + thl f (tcpOffset f) ≤ (f.be16 16).toNat

variable {f out : Frame} {h : Helpers} {kind : Reply} {st : Conn}

/-- The claimed length is the present one exactly when the frame covers the total length. -/
theorem Measured.payloadLen_eq_iff (m : Measured f) :
    payloadLen f = presentLen f ↔ 14 + (f.be16 16).toNat ≤ f.len := by
  have hin := m.inFrame
  have hcov := m.covered
  unfold payloadLen presentLen tcpOffset at *
  omega

theorem ofNat_payload_inj :
    BitVec.ofNat 32 (payloadLen f) = BitVec.ofNat 32 (presentLen f) ↔
      payloadLen f = presentLen f := by
  have htot := (f.be16 16).isLt
  have hclaimed : payloadLen f < 2 ^ 32 := by
    unfold payloadLen
    omega
  have hpresent : presentLen f < 2 ^ 32 := by
    unfold presentLen
    omega
  rw [← BitVec.toNat_inj, BitVec.toNat_ofNat, BitVec.toNat_ofNat, Nat.mod_eq_of_lt hclaimed,
    Nat.mod_eq_of_lt hpresent]

/-! ### What is acknowledged -/

theorem answerSyn_kind (hk : kind ≠ .synack) : answerSyn h f (tcpOffset f) ≠ .tx kind out :=
  fun ho => hk (answerSyn_tx ho).1

/-- A reply other than a SYN-ACK is what `serve` sends on the packet's entry. -/
theorem sliceMain_serve {tab : Conntab} (hk : kind ≠ .synack)
    (htx : (sliceMain h tab f).1 = .tx kind out) :
    Measured f ∧ (serve h f (tcpOffset f) (payloadLen f) (entry tab f)).1 = .tx kind out := by
  unfold sliceMain at htx
  dsimp only at htx
  split at htx
  swap
  · cases htx
  rename_i hp
  split at htx
  · cases htx
  split at htx
  · exact absurd htx (answerSyn_kind hk)
  split at htx
  · cases htx
  unfold answerAck at htx
  dsimp only at htx
  split at htx
  · cases htx
  rename_i hhl
  split at htx
  · cases htx
  rename_i htot
  refine ⟨⟨hp, by omega, by omega⟩, ?_⟩
  unfold entry
  cases hkey : tab (connKey f (tcpOffset f)) with
  | some st =>
      rw [hkey] at htx
      exact htx
  | none =>
      rw [hkey] at htx
      dsimp only at htx
      split at htx
      · cases htx
      split at htx
      · exact htx
      · cases htx

/-- The acknowledgement number of what `serve` sends, by the entry's state and the FIN flag. -/
inductive Acked (f : Frame) (st : Conn) (n : Nat) : Reply → BitVec 32 → Prop where
  | first (hs : st.state = .estab) : Acked f st n .response (seqOf f + BitVec.ofNat 32 n)
  | again (hs : st.state = .respSent) (hf : fin f (tcpOffset f) = false) :
      Acked f st n .response st.clientSeq
  | close (hs : st.state = .respSent) (hf : fin f (tcpOffset f) = true) :
      Acked f st n .finack (seqOf f + BitVec.ofNat 32 n + 1)
  | closeAgain (hs : st.state = .closed) : Acked f st n .finack st.clientSeq

/-- A FIN-ACK that leaves carries the number it was built with. -/
theorem finack_sent {srv cli : BitVec 32}
    {st' : Conn} (hp : parses f = true)
    (htx : (match answerFin h f (tcpOffset f) srv cli with
      | none => (Verdict.aborted, st)
      | some o => (Verdict.tx .finack o, st')).1 = .tx kind out) :
    kind = .finack ∧ ackIn f out = cli := by
  split at htx
  · cases htx
  · rename_i o ho
    cases htx
    exact ⟨rfl, (answerFin_numbers (le_tcpOffset hp) ho).2⟩

/-- A response that leaves carries the number it was built with. -/
theorem response_sent {srv cli : BitVec 32}
    {st' : Conn} (hp : parses f = true)
    (htx : (match answerData h f (tcpOffset f) srv cli with
      | none => (Verdict.aborted, st)
      | some o => (Verdict.tx .response o, st')).1 = .tx kind out) :
    kind = .response ∧ ackIn f out = cli := by
  split at htx
  · cases htx
  · rename_i o ho
    cases htx
    exact ⟨rfl, (answerData_numbers (le_tcpOffset hp) ho).2⟩

theorem serve_acked {n : Nat} (hp : parses f = true)
    (htx : (serve h f (tcpOffset f) n st).1 = .tx kind out) :
    Acked f st n kind (ackIn f out) := by
  unfold serve at htx
  by_cases hfin : fin f (tcpOffset f) = true ∧ (st.state = .respSent ∨ st.state = .closed)
  · rw [if_pos hfin] at htx
    obtain ⟨rfl, ha⟩ := finack_sent hp htx
    rw [ha]
    rcases hfin.2 with hs | hs
    · rw [if_pos hs]
      exact .close hs hfin.1
    · rw [if_neg (by rw [hs]; decide)]
      exact .closeAgain hs
  rw [if_neg hfin] at htx
  split at htx
  swap
  · cases htx
  rename_i hdata
  split at htx
  swap
  · cases htx
  obtain ⟨rfl, ha⟩ := response_sent hp htx
  rw [ha]
  rcases hdata.2 with hs | hs
  · rw [if_pos hs]
    exact .first hs
  · rw [if_neg (by rw [hs]; decide)]
    exact .again hs (Bool.eq_false_iff.mpr fun hf => hfin ⟨hf, .inl hs⟩)

/-- The frame covers the total length; and where a response is repeated, its entry was left by a
request that ended where this one does. -/
def Accountable (tab : Conntab) (f : Frame) : Prop :=
  if (entry tab f).state = .respSent ∧ fin f (tcpOffset f) = false then
    (entry tab f).clientSeq = seqOf f + BitVec.ofNat 32 (presentLen f)
  else 14 + (f.be16 16).toNat ≤ f.len

instance (tab : Conntab) (f : Frame) : Decidable (Accountable tab f) := by
  unfold Accountable
  infer_instance

/-- What a reply acknowledges beyond the payload: a FIN-ACK, the FIN. -/
def finCount : Reply → BitVec 32
  | .finack => 1
  | .response => 0
  | .synack => 0

/-- **When a reply acknowledges what was received.**  A response or a first FIN-ACK acknowledges
the payload bytes that are in the frame, and the FIN, exactly when the frame covers the total
length; a repeated response, when its entry says so. -/
theorem acks_present_iff {h : Helpers} {tab : Conntab} {f out : Frame} {kind : Reply}
    (htx : (sliceMain h tab f).1 = .tx kind out)
    (hkind : kind = .response ∨ (kind = .finack ∧ (entry tab f).state = .respSent)) :
    ackIn f out - seqOf f = BitVec.ofNat 32 (presentLen f) + finCount kind ↔
      Accountable tab f := by
  have hk : kind ≠ .synack := by
    rcases hkind with rfl | ⟨rfl, -⟩ <;> decide
  obtain ⟨m, hserve⟩ := sliceMain_serve hk htx
  have hack := serve_acked m.parses hserve
  generalize ackIn f out = a at hack
  unfold Accountable
  -- a repeated response has its number from the entry, the others from the packet
  cases hack with
  | first hs =>
      rw [if_neg (by rw [hs]; exact fun hc => absurd hc.1 (by decide)), ← m.payloadLen_eq_iff,
        ← ofNat_payload_inj, add_sub_cancel_left, finCount, add_zero]
  | again hs hf =>
      rw [if_pos ⟨hs, hf⟩, sub_eq_iff_eq_add', finCount, add_zero]
  | close hs hf =>
      rw [if_neg (by rw [hf]; exact fun hc => absurd hc.2 (by decide)), ← m.payloadLen_eq_iff,
        ← ofNat_payload_inj, add_assoc, add_sub_cancel_left]
      exact add_left_inj _
  | closeAgain hs =>
      rcases hkind with hc | ⟨-, hc⟩
      · exact absurd hc (by decide)
      · exact absurd (hs.symm.trans hc) (by decide)

/-! ### A request, and a claim of ten bytes -/

/-- The kind of a reply, and how far it acknowledges beyond the packet's sequence number. -/
def Verdict.acked (f : Frame) : Verdict → Option (Reply × BitVec 32)
  | .tx kind out => some (kind, ackIn f out - seqOf f)
  | .pass | .drop | .aborted => none

theorem Verdict.tx_of_acked {v : Verdict} {a : BitVec 32} (h : v.acked f = some (kind, a)) :
    ∃ out, v = .tx kind out ∧ ackIn f out - seqOf f = a := by
  cases v with
  | pass | drop | aborted => cases h
  | tx kind' out =>
      cases h
      exact ⟨out, rfl, rfl⟩

/-- A request of 42 bytes, all of them in the frame. -/
def wholeRequest : Frame := clientFrame 0x18 1 (route ++ List.replicate 30 0x78)

/-- The response to it acknowledges the 42 bytes. -/
theorem acks_present_wholeRequest :
    ∃ out, (sliceMain plainHelpers allEstablished wholeRequest).1 = .tx .response out ∧
      presentLen wholeRequest = 42 ∧
      ackIn wholeRequest out - seqOf wholeRequest =
        BitVec.ofNat 32 (presentLen wholeRequest) + finCount .response := by
  have hacked : (sliceMain plainHelpers allEstablished wholeRequest).1.acked wholeRequest =
      some (.response, 42) := by
    decide
  obtain ⟨out, htx, -⟩ := Verdict.tx_of_acked hacked
  exact ⟨out, htx, by decide, (acks_present_iff htx (.inl rfl)).mpr (by decide)⟩

/-- **The claimed payload is acknowledged.**  A FIN of no payload whose total length is ten bytes
more than its frame's is answered with a first FIN-ACK that acknowledges ten bytes and the FIN. -/
theorem claimed_payload_acked :
    ∃ out, (sliceMain plainHelpers allAnswered (finFrame 0x45 50 [])).1 = .tx .finack out ∧
      (entry allAnswered (finFrame 0x45 50 [])).state = .respSent ∧
      presentLen (finFrame 0x45 50 []) = 0 ∧
      ackIn (finFrame 0x45 50 []) out - seqOf (finFrame 0x45 50 []) = 11 ∧
      ackIn (finFrame 0x45 50 []) out - seqOf (finFrame 0x45 50 []) ≠
        BitVec.ofNat 32 (presentLen (finFrame 0x45 50 [])) + finCount .finack := by
  have hacked : (sliceMain plainHelpers allAnswered (finFrame 0x45 50 [])).1.acked
      (finFrame 0x45 50 []) = some (.finack, 11) := by
    decide
  have hpresent : presentLen (finFrame 0x45 50 []) = 0 := by decide
  obtain ⟨out, htx, hack⟩ := Verdict.tx_of_acked hacked
  refine ⟨out, htx, rfl, hpresent, hack, ?_⟩
  rw [hack, hpresent]
  decide

end SpinelEbpf.Tcp

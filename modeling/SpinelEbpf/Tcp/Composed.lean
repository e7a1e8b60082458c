import SpinelEbpf.Tcp.Life

/-!
# Tcp — composable replies

`tcp_reply_header`, `tcp_reply_synack` and `tcp_reply_data` turn the packet of an XDP handler into
a reply in place.  The handler chooses the numbers, the flags and the cookie; the body of a data
reply is compiled in.  All three take a packet whose IP header has no options, so the TCP header is
at byte 34, and write headers of constant length; they differ in what stands behind the TCP header
and in whether the frame is cut to the reply.

`composed_replies_valid` says that a call that returns `0` leaves a valid reply, given the same
checksum helper as for the slice (`Helpers.Sums`).  A call that returns `-1` may leave a frame that
is partly rewritten.
-/

namespace SpinelEbpf.Tcp

open Checksum

/-! ### The three calls -/

/-- `spnl_reply_csum_fold`, which is the slice's. -/
abbrev replyCsumFold (csum : BitVec 32) : BitVec 16 := csumFold csum

/-- `spnl_reply_csum_tcp`, which is the slice's at `IPPROTO_TCP`. -/
abbrev replyCsumTcp (saddr daddr : BitVec 32) (len : Nat) (csum : BitVec 32) : BitVec 16 :=
  csumTcpudp saddr daddr len 6 csum

/-- The checks that all three make before they write: Ethernet, IPv4 without options and TCP
headers in the frame. -/
def replyable (f : Frame) : Bool :=
  14 ≤ f.len ∧ f.be16 12 = 0x0800 ∧ 34 ≤ f.len ∧ f.byte 23 = 6 ∧ f.byte 14 &&& 0x0f#8 = 5#8 ∧
    54 ≤ f.len

/-- `tot_len`, `ttl` and `id`. -/
def composedIp (f : Frame) (totLen : BitVec 16) : Frame :=
  let f := f.setBe16 16 totLen
  let f := f.set8 22 64
  f.setBe16 18 0

/-- The two checksums; the result and the frame. -/
def composedCsums (h : Helpers) (f : Frame) (seglen : Nat) : Int × Frame :=
  let f := f.setLe16 24 0
  let v := h.csumDiff (segment f.byte 14 20)
  if v < 0 then (-1, f)
  else
    let f := f.setLe16 24 (replyCsumFold (BitVec.ofInt 32 v))
    let f := f.setLe16 50 0
    let v := h.csumDiff (segment f.byte 34 seglen)
    if v < 0 then (-1, f)
    else (0, f.setLe16 50 (replyCsumTcp (f.le32 26) (f.le32 30) seglen (BitVec.ofInt 32 v)))

/-- The resize at the end, of a call that has not failed. -/
def composedResize (h : Helpers) (want : Nat) : Int × Frame → Int × Frame
  | (r, f) =>
    if r ≠ 0 then (r, f)
    else
      match resize h f want with
      | none => (-1, f)
      | some g => (0, g)

/-- `spnl_tcp_reply_header`.  The TCP header's fields are stored in another order than by
`replyHeader`, which makes no difference to the frame: no two stores overlap.  The frame keeps its
length. -/
def tcpReplyHeader (h : Helpers) (f : Frame) (seq ack : BitVec 32) (flags : Byte) : Int × Frame :=
  if replyable f then
    let f := replyHeader f 34 seq ack flags 5
    composedCsums h (composedIp f (20 + 20)) 20
  else (-1, f)

/-- The MSS in a cookie; `1460` if there is none. -/
def cookieMss (cookie : BitVec 64) : BitVec 16 :=
  let mss := (cookie.sshiftRight 32).setWidth 16
  if mss = 0 then 1460 else mss

/-- `spnl_tcp_reply_synack`. -/
def tcpReplySynack (h : Helpers) (f : Frame) (cookie : BitVec 64) : Int × Frame :=
  if replyable f ∧ 54 + 4 ≤ f.len then
    let cookieSeq := cookie.setWidth 32
    let mss := cookieMss cookie
    let clientSeq := f.be32 38
    let f := replyHeader f 34 cookieSeq (clientSeq + 1) 0x12 6
    let f := f.set8 54 2
    let f := f.set8 55 4
    let f := f.set8 56 (mss.extractLsb' 8 8)
    let f := f.set8 57 (mss.extractLsb' 0 8)
    composedResize h (14 + 20 + 24) (composedCsums h (composedIp f (20 + 24)) 24)
  else (-1, f)

/-- `spnl_tcp_reply_data`, with its compiled body. -/
def tcpReplyData (h : Helpers) (body : List Byte) (f : Frame) (seq ack : BitVec 32) :
    Int × Frame :=
  if replyable f ∧ 54 + body.length ≤ f.len then
    let f := replyHeader f 34 seq ack 0x19 5
    let f := f.blit 54 body.length fun i => body.getD i 0
    composedResize h (14 + 20 + 20 + body.length)
      (composedCsums h (composedIp f (BitVec.ofNat 16 (20 + 20 + body.length)))
        (20 + body.length))
  else (-1, f)

/-! ### Valid replies -/

/-- `out` is a valid reply to `f`: everything is addressed back; right behind the IP header is a TCP
header of `doff` words with these flags and numbers, and `rest` behind its first twenty bytes;
`tot_len` covers the two and is in the frame; and both checksums are right. -/
structure ValidReply (f out : Frame) (seq ack : BitVec 32) (flags doff : Byte) (rest : List Byte) :
    Prop where
  macs : ∀ i, i < 6 → out.byte i = f.byte (6 + i) ∧ out.byte (6 + i) = f.byte i
  addrs : out.be32 26 = f.be32 30 ∧ out.be32 30 = f.be32 26
  ports : out.be16 34 = f.be16 36 ∧ out.be16 36 = f.be16 34
  numbers : out.be32 38 = seq ∧ out.be32 42 = ack
  flags : out.byte 47 = flags
  doff : out.byte 46 >>> 4 = doff
  behind : segment out.byte 54 rest.length = rest
  ihl : ihl out = 20
  totLen : (out.be16 16).toNat = 20 + (20 + rest.length)
  inFrame : 14 + (out.be16 16).toNat ≤ out.len
  ipSum : onesSum (segment out.byte 14 20) = 0xFFFF
  tcpSum : onesSum (pseudoHeader out (20 + rest.length) ++
    segment out.byte 34 (20 + rest.length)) = 0xFFFF

/-! ### The headers -/

/-- A turned frame with these numbers and flags, and the first byte of the packet's IP header. -/
structure Headed (f g : Frame) (seq ack : BitVec 32) (flags doff : Byte) : Prop
    extends Turned f g 34 doff where
  numbers : g.be32 38 = seq ∧ g.be32 42 = ack
  flags : g.byte 47 = flags
  version : g.byte 14 = f.byte 14

section Headed

variable {f g : Frame} {seq ack : BitVec 32} {flags doff : Byte}

/-- A store behind the first two bytes of the IP header, to its checksum, or behind the flags,
changes none of it. -/
theorem Headed.blit {o n : Nat} {src : Nat → Byte} (t : Headed f g seq ack flags doff)
    (ho : (16 ≤ o ∧ o + n ≤ 23) ∨ (24 ≤ o ∧ o + n ≤ 26) ∨ 48 ≤ o) :
    Headed f (g.blit o n src) seq ack flags doff where
  toTurned := t.toTurned.blit (Nat.le_refl 34) (by omega)
  numbers := by
    rw [Frame.be32_blit_off (by omega), Frame.be32_blit_off (by omega)]
    exact t.numbers
  flags := by
    rw [Frame.byte_blit_off (by omega)]
    exact t.flags
  version := by
    rw [Frame.byte_blit_off (by omega)]
    exact t.version

theorem replyHeader_headed (f : Frame) (seq ack : BitVec 32) (flags : Byte)
    (hd : doff = 5 ∨ doff = 6) :
    Headed f (replyHeader f 34 seq ack flags doff) seq ack flags doff where
  toTurned := replyHeader_turned (Nat.le_refl 34) seq ack flags hd
  numbers := replyHeader_numbers f 34 seq ack flags doff
  flags := by
    simp (disch := omega) only [replyHeader, Frame.byte_blit_off, Frame.byte_blit_on]
  version := by
    simp (disch := omega) only [replyHeader, swapPorts, swapAddrs, swapMac, Frame.byte_blit_off]

theorem Headed.ip (t : Headed f g seq ack flags doff) (totLen : BitVec 16) :
    Headed f (composedIp g totLen) seq ack flags doff := by
  unfold composedIp
  exact ((t.blit (by omega)).blit (by omega)).blit (by omega)

theorem be16_composedIp (g : Frame) (totLen : BitVec 16) :
    (composedIp g totLen).be16 16 = totLen := by
  simp (disch := omega) only [composedIp, Frame.be16_blit_off, Frame.be16_setBe16]

end Headed

/-! ### Checksums and length -/

variable {f b : Frame} {h : Helpers} {seglen : Nat} {seq ack : BitVec 32} {flags : Byte}

theorem composedCsums_recomputed (hr : (composedCsums h f seglen).1 = 0)
    (hfit : 34 + seglen ≤ f.len) :
    Nonempty (Recomputed h f 34 seglen (composedCsums h f seglen).2) := by
  unfold composedCsums at hr ⊢
  dsimp only at hr ⊢
  split at hr
  · exact absurd hr (show (-1 : Int) ≠ 0 by decide)
  rename_i hip
  split at hr
  · exact absurd hr (show (-1 : Int) ≠ 0 by decide)
  rename_i hseg
  rw [if_neg hip, if_neg hseg]
  exact ⟨⟨_, _, rfl, Int.not_lt.mp hip, hfit, rfl, Int.not_lt.mp hseg, rfl⟩⟩

theorem len_composedIp (f : Frame) (totLen : BitVec 16) : (composedIp f totLen).len = f.len := by
  simp only [composedIp, Frame.len_blit]

theorem len_replyHeader (f : Frame) (tcp : Nat) (seq ack : BitVec 32) (flags doff : Byte) :
    (replyHeader f tcp seq ack flags doff).len = f.len := by
  simp only [replyHeader, swapPorts, swapAddrs, swapMac, Frame.len_blit]

theorem len_composedCsums (h : Helpers) (f : Frame) (seglen : Nat) :
    (composedCsums h f seglen).2.len = f.len := by
  unfold composedCsums
  dsimp only
  split
  · rfl
  · split <;> rfl

theorem composedResize_zero {want : Nat} {p : Int × Frame} (hr : (composedResize h want p).1 = 0) :
    p.1 = 0 ∧ (composedResize h want p).2.len = want ∧
      (composedResize h want p).2.byte = p.2.byte := by
  obtain ⟨r, f⟩ := p
  unfold composedResize at hr ⊢
  dsimp only at hr ⊢
  by_cases hz : r ≠ 0
  · rw [if_pos hz] at hr
    exact absurd hr hz
  rw [if_neg hz] at hr ⊢
  cases hg : resize h f want with
  | none =>
      rw [hg] at hr
      exact absurd hr (show (-1 : Int) ≠ 0 by decide)
  | some g => exact ⟨not_not.mp hz, resize_some hg⟩

/-- The checksums change nothing else. -/
theorem Headed.recomputed {g : Frame} {doff : Byte} (t : Headed f b seq ack flags doff)
    (r : Recomputed h b 34 seglen g) :
    Headed f g seq ack flags doff := by
  rw [r.frame_eq, ipSummed]
  refine Headed.blit ?_ (by omega)
  refine Headed.blit ?_ (by omega)
  refine Headed.blit ?_ (by omega)
  exact t.blit (by omega)

/-- Nor do they, or the IP header, change what is behind the TCP header. -/
theorem segment_recomputed {g : Frame} {totLen : BitVec 16} {n : Nat}
    (r : Recomputed h (composedIp b totLen) 34 seglen g) :
    segment g.byte 54 n = segment b.byte 54 n := by
  refine segment_congr fun a ha _ => ?_
  rw [r.byte_eq (by omega), ipSummed]
  simp (disch := omega) only [composedIp, Frame.byte_blit_off]

/-- From the headers to the reply: with the checksums computed over a segment that is in the frame,
and the frame cut no shorter. -/
theorem Headed.valid {out : Frame} {doff : Byte} {totLen : BitVec 16} {rest : List Byte}
    (hsum : h.Sums) (hf : replyable f = true) (t : Headed f b seq ack flags doff)
    (hrest : segment b.byte 54 rest.length = rest)
    (hr : (composedCsums h (composedIp b totLen) seglen).1 = 0)
    (hbyte : out.byte = (composedCsums h (composedIp b totLen) seglen).2.byte)
    (hseg : seglen = 20 + rest.length) (hfit : 34 + seglen ≤ b.len) (hlen : 34 + seglen ≤ out.len)
    (htot : totLen.toNat = 20 + seglen) (hlt : rest.length ≤ 1400) :
    ValidReply f out seq ack flags doff rest := by
  subst hseg
  simp only [replyable, decide_eq_true_eq] at hf
  obtain ⟨-, -, -, hproto, hihl, -⟩ := hf
  obtain ⟨r⟩ := composedCsums_recomputed hr hfit
  generalize (composedCsums h (composedIp b totLen) (20 + rest.length)).2 = g at r hbyte
  have t' : Headed f g seq ack flags doff := (t.ip totLen).recomputed r
  have htotLen : g.be16 16 = totLen := by
    rw [r.frame_eq, ipSummed]
    simp (disch := omega) only [Frame.be16_blit_off, be16_composedIp]
  -- a header of zeros would sum to zero, which is not `0xFFFF`
  have hversion : (composedIp b totLen).byte 14 ≠ 0 := by
    rw [(t.ip totLen).version]
    intro hz
    rw [hz] at hihl
    exact absurd hihl (by decide)
  have hip := r.onesSum_ip hsum hversion
  have htcp := r.onesSum_tcp hsum ((t.ip totLen).protocol.trans hproto) (by omega) (by omega)
  obtain ⟨n, byte⟩ := out
  obtain rfl : byte = g.byte := hbyte
  exact {
    macs := t'.macs
    addrs := t'.addrs
    ports := t'.ports
    numbers := t'.numbers
    flags := t'.flags
    doff := t'.doff
    behind := (segment_recomputed r).trans hrest
    ihl := by
      change (g.byte 14 &&& 0x0f#8).toNat * 4 = 20
      rw [t'.version, hihl]
      rfl
    totLen := (congrArg BitVec.toNat htotLen).trans htot
    inFrame := by
      change 14 + (g.be16 16).toNat ≤ n
      change 34 + (20 + rest.length) ≤ n at hlen
      rw [htotLen, htot]
      omega
    ipSum := hip
    tcpSum := htcp }

/-- A body that was written is there. -/
theorem segment_body (f : Frame) (o : Nat) (body : List Byte) :
    segment (f.blit o body.length fun i => body.getD i 0).byte o body.length = body := by
  refine List.ext_getElem (length_segment ..) fun i hi hi' => ?_
  simp only [Checksum.segment, List.getElem_map, List.getElem_range]
  rw [Frame.byte_blit_on (by omega) (by omega), Nat.add_sub_cancel_left,
    List.getD_eq_getElem _ _ hi']

/-- Four bytes that were written one by one are there. -/
theorem segment_options (f : Frame) (b₀ b₁ b₂ b₃ : Byte) :
    segment ((((f.set8 54 b₀).set8 55 b₁).set8 56 b₂).set8 57 b₃).byte 54 4 = [b₀, b₁, b₂, b₃] := by
  simp (disch := omega) only [Checksum.segment, List.range, List.range.loop, List.map_cons,
    List.map_nil, Nat.add_zero, Nat.reduceAdd, Frame.byte_blit_off, Frame.byte_blit_on]

/-! ### The three replies -/

/-- The MSS option of a SYN-ACK. -/
def mssOption (cookie : BitVec 64) : List Byte :=
  [2, 4, (cookieMss cookie).extractLsb' 8 8, (cookieMss cookie).extractLsb' 0 8]

/-- A call that returns `0` has passed its checks. -/
theorem guard_passed {c : Prop} [Decidable c] {p : Int × Frame}
    (hr : (if c then p else (-1, f)).1 = 0) : c := by
  by_contra hc
  rw [if_neg hc] at hr
  exact absurd hr (show (-1 : Int) ≠ 0 by decide)

section Replies

variable (hsum : h.Sums)

include hsum

theorem tcpReplyHeader_valid (hr : (tcpReplyHeader h f seq ack flags).1 = 0) :
    ValidReply f (tcpReplyHeader h f seq ack flags).2 seq ack flags 5 [] := by
  unfold tcpReplyHeader at hr ⊢
  have hf := guard_passed hr
  rw [if_pos hf] at hr ⊢
  have hlen : 54 ≤ f.len := (of_decide_eq_true hf).2.2.2.2.2
  refine (replyHeader_headed f seq ack flags (.inl rfl)).valid hsum hf rfl hr rfl rfl ?_ ?_ rfl ?_
  · rwa [len_replyHeader]
  · rwa [len_composedCsums, len_composedIp, len_replyHeader]
  · decide

theorem tcpReplySynack_valid {cookie : BitVec 64} (hr : (tcpReplySynack h f cookie).1 = 0) :
    ValidReply f (tcpReplySynack h f cookie).2 (cookie.setWidth 32) (f.be32 38 + 1) 0x12 6
      (mssOption cookie) := by
  unfold tcpReplySynack at hr ⊢
  have hf := guard_passed hr
  rw [if_pos hf] at hr ⊢
  obtain ⟨hcsum, hlen, hbyte⟩ := composedResize_zero hr
  have t := replyHeader_headed f (cookie.setWidth 32) (f.be32 38 + 1) 0x12 (.inr rfl)
  refine Headed.valid hsum hf.1 ?_ (segment_options ..) hcsum hbyte rfl ?_ hlen.ge rfl ?_
  · exact (((t.blit (by omega)).blit (by omega)).blit (by omega)).blit (by omega)
  · rw [Frame.len_blit, Frame.len_blit, Frame.len_blit, Frame.len_blit, len_replyHeader]
    exact hf.2
  · exact Nat.le_of_ble_eq_true rfl

theorem tcpReplyData_valid {body : List Byte} (hbody : body.length ≤ 1400)
    (hr : (tcpReplyData h body f seq ack).1 = 0) :
    ValidReply f (tcpReplyData h body f seq ack).2 seq ack 0x19 5 body := by
  unfold tcpReplyData at hr ⊢
  have hf := guard_passed hr
  rw [if_pos hf] at hr ⊢
  obtain ⟨hcsum, hlen, hbyte⟩ := composedResize_zero hr
  refine Headed.valid hsum hf.1 ?_ (segment_body ..) hcsum hbyte rfl ?_ ?_ ?_ hbody
  · exact (replyHeader_headed f seq ack 0x19 (.inl rfl)).blit (by omega)
  · rw [Frame.len_blit, len_replyHeader]
    omega
  · rw [hlen]
    omega
  · rw [BitVec.toNat_ofNat]
    omega

/-- **Composable replies are valid.**  Whatever the frame, the numbers, the flags, the cookie and
the body, a call that returns `0` has turned the packet into a valid reply. -/
theorem composed_replies_valid (f : Frame) :
    (∀ seq ack flags, (tcpReplyHeader h f seq ack flags).1 = 0 →
      ValidReply f (tcpReplyHeader h f seq ack flags).2 seq ack flags 5 []) ∧
    (∀ cookie, (tcpReplySynack h f cookie).1 = 0 →
      ValidReply f (tcpReplySynack h f cookie).2 (cookie.setWidth 32) (f.be32 38 + 1) 0x12 6
        (mssOption cookie)) ∧
    ∀ body seq ack, 0 < body.length → body.length ≤ 1400 → (tcpReplyData h body f seq ack).1 = 0 →
      ValidReply f (tcpReplyData h body f seq ack).2 seq ack 0x19 5 body :=
  ⟨fun _ _ _ hr => tcpReplyHeader_valid hsum hr, fun _ hr => tcpReplySynack_valid hsum hr,
    fun _ _ _ _ hbody hr => tcpReplyData_valid hsum hbody hr⟩

end Replies

/-- A packet of six bytes of payload. -/
def shortRequest : Frame := clientFrame 0x18 1 [0x47, 0x45, 0x54, 0x20, 0x2f, 0x0a]

/-- All three replies to it; the body has an odd length. -/
theorem composed_replies_valid_shortRequest :
    ValidReply shortRequest (tcpReplyHeader plainHelpers shortRequest 2 7 0x10).2 2 7 0x10 5 [] ∧
      ValidReply shortRequest (tcpReplySynack plainHelpers shortRequest 0x05b400001234).2 0x1234 2
        0x12 6 [2, 4, 0x05, 0xb4] ∧
      ValidReply shortRequest (tcpReplyData plainHelpers [0x4f, 0x4b, 0x0a] shortRequest 2 7).2 2 7
        0x19 5 [0x4f, 0x4b, 0x0a] := by
  obtain ⟨hheader, hsynack, hdata⟩ := composed_replies_valid plainHelpers_sums shortRequest
  exact ⟨hheader 2 7 0x10 (by decide), hsynack 0x05b400001234 (by decide),
    hdata [0x4f, 0x4b, 0x0a] 2 7 (by decide) (by decide) (by decide)⟩

end SpinelEbpf.Tcp

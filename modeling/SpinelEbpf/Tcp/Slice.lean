import SpinelEbpf.Tcp.Frame

/-!
# Tcp — the TCP slice

`tcp_slice.template.c` answers HTTP health checks from XDP.  A SYN is answered with a SYN cookie
and no state; an ACK that returns a valid cookie creates an entry in `bpf_conntab`; a `GET /health `
on an entry is answered with the whole response and a FIN, and the client's FIN with an ACK.  The
client may repeat a request or a FIN: the entry then only holds what was sent advanced by what was
sent, and the reply is rebuilt from it.

The helpers are parameters (`Helpers`): what the cookie checks and the checksum helper return, and
whether a resize or a map insertion succeeds, is up to the kernel.  The counters of
`bpf_ts_counters` and the arming of the timer have no effect on what is sent and are left out; a
timer that fires deletes an entry between two packets.
-/

namespace SpinelEbpf.Tcp

open Function

open Checksum (segment)

/-! ### Connections -/

/-- `struct spnl_tcp_slice_key`. -/
structure Key where
  saddr : BitVec 32
  daddr : BitVec 32
  sport : BitVec 16
  dport : BitVec 16
  deriving DecidableEq, Repr

/-- The values of `state`: 1, 2 and 3. -/
inductive ConnState where
  | estab
  | respSent
  | closed
  deriving DecidableEq, Repr

/-- `struct spnl_tcp_slice_state`, without the timer. -/
structure Conn where
  serverSeq : BitVec 32
  clientSeq : BitVec 32
  mss : BitVec 16
  state : ConnState
  deriving DecidableEq, Repr

/-- `bpf_conntab`. -/
abbrev Conntab := Key → Option Conn

/-- What the kernel's helpers do while one packet is processed. -/
structure Helpers where
  /-- `bpf_xdp_adjust_tail` by this many bytes succeeds. -/
  adjustTail : Frame → Int → Bool
  /-- `bpf_tcp_raw_gen_syncookie_ipv4`, given the TCP header's offset and length. -/
  genSyncookie : Frame → Nat → Nat → Int
  /-- `bpf_tcp_raw_check_syncookie_ipv4`, given the TCP header's offset. -/
  checkSyncookie : Frame → Nat → Int
  /-- `bpf_csum_diff` from nothing to these bytes. -/
  csumDiff : List Byte → Int
  /-- A new entry is in the map when it is looked up after its insertion. -/
  inserted : Bool

/-! ### Checksums -/

/-- `spnl_tcp_slice_csum_fold`. -/
def csumFold (csum : BitVec 32) : BitVec 16 :=
  let csum := (csum &&& 0xffff#32) + (csum >>> 16)
  let csum := (csum &&& 0xffff#32) + (csum >>> 16)
  (~~~csum).setWidth 16

/-- The loop `while (s >> 32) s = (s & 0xffffffff) + (s >> 32)`, run at most `n` times. -/
def foldCarries : Nat → Nat → Nat
  | 0, s => s
  | n + 1, s => if s / 2 ^ 32 ≠ 0 then foldCarries n (s % 2 ^ 32 + s / 2 ^ 32) else s

/-- `bpf_htons`, as a number. -/
def htons (n : Nat) : Nat := n % 256 * 256 + n / 256 % 256

/-- `spnl_tcp_slice_csum_tcpudp`. -/
def csumTcpudp (saddr daddr : BitVec 32) (len proto : Nat) (csum : BitVec 32) : BitVec 16 :=
  let s := csum.toNat
  let s := s + saddr.toNat
  let s := s + daddr.toNat
  let s := s + htons (proto + len)
  csumFold (BitVec.ofNat 32 (foldCarries 2 s))

/-- `spnl_tcp_slice_recompute_csums`; `none` is its `-1`. -/
def recomputeCsums (h : Helpers) (f : Frame) (tcp seglen : Nat) : Option Frame :=
  let f := f.setLe16 24 0
  let v := h.csumDiff (segment f.byte 14 20)
  if v < 0 then none
  else
    let f := f.setLe16 24 (csumFold (BitVec.ofInt 32 v))
    let f := f.setLe16 (tcp + 16) 0
    if tcp + seglen > f.len then none
    else
      let v := h.csumDiff (segment f.byte tcp seglen)
      if v < 0 then none
      else some (f.setLe16 (tcp + 16)
        (csumTcpudp (f.le32 26) (f.le32 30) seglen 6 (BitVec.ofInt 32 v)))

/-! ### Building replies -/

/-- `spnl_tcp_slice_swap_mac`. -/
def swapMac (f : Frame) : Frame :=
  (f.blit 0 6 fun i => f.byte (6 + i)).blit 6 6 fun i => f.byte i

/-- The exchange of `saddr` and `daddr`. -/
def swapAddrs (f : Frame) : Frame :=
  (f.blit 26 4 fun i => f.byte (30 + i)).blit 30 4 fun i => f.byte (26 + i)

/-- The exchange of `source` and `dest`. -/
def swapPorts (f : Frame) (tcp : Nat) : Frame :=
  (f.blit tcp 2 fun i => f.byte (tcp + 2 + i)).blit (tcp + 2) 2 fun i => f.byte (tcp + i)

/-- The flags of a TCP header, `fin` the lowest bit. -/
def tcpFlags (fin syn rst psh ack urg ece cwr : Bool) : Byte :=
  BitVec.ofNat 8 (fin.toNat + 2 * syn.toNat + 4 * rst.toNat + 8 * psh.toNat + 16 * ack.toNat +
    32 * urg.toNat + 64 * ece.toNat + 128 * cwr.toNat)

/-- What the three builders do alike: everything up to the options or the payload. -/
def replyHeader (f : Frame) (tcp : Nat) (seq ackSeq : BitVec 32) (flags : Byte) (doff : Byte) :
    Frame :=
  let f := swapMac f
  let f := swapAddrs f
  let f := swapPorts f tcp
  let f := f.setBe32 (tcp + 4) seq
  let f := f.setBe32 (tcp + 8) ackSeq
  let f := f.set8 (tcp + 13) flags
  let f := f.set8 (tcp + 12) ((doff <<< 4) ||| (f.byte (tcp + 12) &&& 0x0f#8))
  let f := f.setBe16 (tcp + 14) 65535
  f.setBe16 (tcp + 18) 0

/-- The IP header of a reply: `ihl`, `tot_len`, `ttl` and `id`. -/
def replyIp (f : Frame) (totLen : BitVec 16) : Frame :=
  let f := f.set8 14 ((f.byte 14 &&& 0xf0#8) ||| 5#8)
  let f := f.setBe16 16 totLen
  let f := f.set8 22 64
  f.setBe16 18 0

/-- `spnl_tcp_slice_build_synack`. -/
def buildSynack (f : Frame) (tcp : Nat) (cookie : BitVec 32) (mss : BitVec 16) : Option Frame :=
  let f := replyHeader f tcp cookie (f.be32 (tcp + 4) + 1)
    (tcpFlags false true false false true false false false) 6
  if tcp + 20 + 4 > f.len then none
  else
    let f := f.set8 (tcp + 20) 2
    let f := f.set8 (tcp + 21) 4
    let f := f.set8 (tcp + 22) (mss.extractLsb' 8 8)
    some (f.set8 (tcp + 23) (mss.extractLsb' 0 8))

/-- `spnl_tcp_slice_resp_body`. -/
def respBody : List Byte :=
  [0x48, 0x54, 0x54, 0x50, 0x2f, 0x31, 0x2e, 0x30, 0x20, 0x32, 0x30, 0x30, 0x20, 0x4f, 0x4b, 0x0d,
   0x0a, 0x43, 0x6f, 0x6e, 0x74, 0x65, 0x6e, 0x74, 0x2d, 0x4c, 0x65, 0x6e, 0x67, 0x74, 0x68, 0x3a,
   0x20, 0x33, 0x0d, 0x0a, 0x0d, 0x0a, 0x4f, 0x4b, 0x0a]

/-- `spnl_tcp_slice_build_response`. -/
def buildResponse (f : Frame) (tcp : Nat) (srvSeq cliSeq : BitVec 32) : Option Frame :=
  let f := replyHeader f tcp srvSeq cliSeq
    (tcpFlags true false false true true false false false) 5
  if tcp + 20 + 41 > f.len then none
  else
    let f := f.blit (tcp + 20) 41 fun i => respBody.getD i 0
    some (replyIp f (20 + 20 + 41))

/-- `spnl_tcp_slice_build_finack`. -/
def buildFinack (f : Frame) (tcp : Nat) (srvSeq cliSeq : BitVec 32) : Frame :=
  let f := replyHeader f tcp srvSeq cliSeq
    (tcpFlags false false false false true false false false) 5
  replyIp f (20 + 20)

/-- The route's request line, `GET /health ` with the blank. -/
def route : List Byte :=
  [0x47, 0x45, 0x54, 0x20, 0x2f, 0x68, 0x65, 0x61, 0x6c, 0x74, 0x68, 0x20]

/-- `spnl_tcp_slice_match_route`: whether a slot was found. -/
def matchRoute (f : Frame) (p len : Nat) : Bool :=
  12 ≤ len ∧ p + 12 ≤ f.len ∧ segment f.byte p 12 = route

/-! ### The program -/

/-- The three kinds of reply. -/
inductive Reply where
  | synack
  | response
  | finack
  deriving DecidableEq, Repr

/-- What becomes of a packet; a transmitted one is the frame as it leaves. -/
inductive Verdict where
  | pass
  | drop
  | aborted
  | tx (kind : Reply) (out : Frame)

/-- `bpf_xdp_adjust_tail`: only the length changes. -/
def adjustTail (h : Helpers) (f : Frame) (delta : Int) : Option Frame :=
  if h.adjustTail f delta then some { f with len := (f.len + delta).toNat } else none

/-- The resize before a reply leaves. -/
def resize (h : Helpers) (f : Frame) (want : Nat) : Option Frame :=
  if f.len ≠ want then adjustTail h f (want - f.len) else some f

/-- The IP header's length in bytes, `iph->ihl * 4`. -/
def ihl (f : Frame) : Nat := (f.byte 14 &&& 0x0f#8).toNat * 4

/-- Where the TCP header starts. -/
def tcpOffset (f : Frame) : Nat := 14 + ihl f

/-- The TCP header's length in bytes, `tcp->doff * 4`. -/
def thl (f : Frame) (tcp : Nat) : Nat := (f.byte (tcp + 12) >>> 4).toNat * 4

def fin (f : Frame) (tcp : Nat) : Bool := (f.byte (tcp + 13)).getLsbD 0
def syn (f : Frame) (tcp : Nat) : Bool := (f.byte (tcp + 13)).getLsbD 1
def rst (f : Frame) (tcp : Nat) : Bool := (f.byte (tcp + 13)).getLsbD 2
def ack (f : Frame) (tcp : Nat) : Bool := (f.byte (tcp + 13)).getLsbD 4

/-- The entry a packet belongs to. -/
def connKey (f : Frame) (tcp : Nat) : Key :=
  { saddr := f.be32 26, daddr := f.be32 30, sport := f.be16 tcp, dport := f.be16 (tcp + 2) }

/-- The program takes the packet for one of its own: IPv4, TCP, port 8080, both headers there. -/
def parses (f : Frame) : Bool :=
  14 ≤ f.len ∧ f.be16 12 = 0x0800 ∧ 34 ≤ f.len ∧ f.byte 23 = 6 ∧ 20 ≤ ihl f ∧
    14 + ihl f ≤ f.len ∧ tcpOffset f + 20 ≤ f.len ∧ f.be16 (tcpOffset f + 2) = 8080

/-- The SYN branch. -/
def answerSyn (h : Helpers) (f : Frame) (tcp : Nat) : Verdict :=
  let thlIn := thl f tcp
  if thlIn < 20 ∨ tcp + thlIn > f.len then .drop
  else
    match adjustTail h f (60 - thlIn) with
    | none => .aborted
    | some f =>
      if 14 > f.len then .aborted
      else if 14 + 60 > f.len then .aborted
      else
        let tcp := tcpOffset f
        if tcp + 60 > f.len then .aborted
        else
          let cookie := h.genSyncookie f tcp thlIn
          if cookie < 0 then .aborted
          else
            let cookieSeq := BitVec.ofInt 32 cookie
            let mss := BitVec.ofInt 16 (cookie / 2 ^ 32)
            let mss := if mss = 0 then 1460 else mss
            match buildSynack f tcp cookieSeq mss with
            | none => .aborted
            | some f =>
              match recomputeCsums h (replyIp f (20 + 24)) tcp 24 with
              | none => .aborted
              | some f =>
                match resize h f (14 + 20 + 24) with
                | none => .aborted
                | some f => .tx .synack f

/-- The FIN branch, with the acknowledgement number to send. -/
def answerFin (h : Helpers) (f : Frame) (tcp : Nat) (srvSeq cliSeq : BitVec 32) : Option Frame :=
  match recomputeCsums h (buildFinack f tcp srvSeq cliSeq) tcp 20 with
  | none => none
  | some f => resize h f (14 + 20 + 20)

/-- The data branch, with the numbers to send. -/
def answerData (h : Helpers) (f : Frame) (tcp : Nat) (srvSeq cliSeq : BitVec 32) : Option Frame :=
  match buildResponse f tcp srvSeq cliSeq with
  | none => none
  | some f =>
    match recomputeCsums h f tcp (20 + 41) with
    | none => none
    | some f => resize h f (14 + 20 + 20 + 41)

/-- The program from the point where the entry `st` of the packet is known: the verdict and the
entry after. -/
def serve (h : Helpers) (f : Frame) (tcp payloadLen : Nat) (st : Conn) : Verdict × Conn :=
  if fin f tcp ∧ (st.state = .respSent ∨ st.state = .closed) then
    let cliSeqForAck :=
      if st.state = .respSent then f.be32 (tcp + 4) + BitVec.ofNat 32 payloadLen + 1
      else st.clientSeq
    match answerFin h f tcp st.serverSeq cliSeqForAck with
    | none => (.aborted, st)
    | some out =>
      (.tx .finack out,
        if st.state = .respSent then { st with state := .closed, clientSeq := cliSeqForAck }
        else st)
  else if 0 < payloadLen ∧ (st.state = .estab ∨ st.state = .respSent) then
    if matchRoute f (tcp + thl f tcp) payloadLen then
      let srvSeqToSend :=
        if st.state = .estab then st.serverSeq else st.serverSeq - 41 - 1
      let cliSeqAfter :=
        if st.state = .estab then f.be32 (tcp + 4) + BitVec.ofNat 32 payloadLen
        else st.clientSeq
      match answerData h f tcp srvSeqToSend cliSeqAfter with
      | none => (.aborted, st)
      | some out =>
        (.tx .response out,
          if st.state = .estab then
            { st with serverSeq := srvSeqToSend + 41 + 1, clientSeq := cliSeqAfter,
                      state := .respSent }
          else st)
    else (.drop, st)
  else (.drop, st)

/-- The entry a valid cookie creates. -/
def newConn (f : Frame) (tcp : Nat) : Conn :=
  { serverSeq := f.be32 (tcp + 8), clientSeq := f.be32 (tcp + 4), mss := 1460, state := .estab }

/-- The program from the point where the packet is known to carry ACK. -/
def answerAck (h : Helpers) (tab : Conntab) (f : Frame) (tcp : Nat) : Verdict × Conntab :=
  let hl := thl f tcp
  if hl < 20 ∨ tcp + hl > f.len then (.drop, tab)
  else
    let ipTot := (f.be16 16).toNat
    if ipTot < ihl f + hl then (.drop, tab)
    else
      let payloadLen := ipTot - ihl f - hl
      let k := connKey f tcp
      match tab k with
      | some st =>
        let (verdict, st) := serve h f tcp payloadLen st
        (verdict, update tab k (some st))
      | none =>
        if h.checkSyncookie f tcp < 0 then (.pass, tab)
        else if h.inserted then
          let (verdict, st) := serve h f tcp payloadLen (newConn f tcp)
          (verdict, update tab k (some st))
        else (.drop, tab)

/-- `spnl_tcp_slice_main`: the verdict and the connections after. -/
def sliceMain (h : Helpers) (tab : Conntab) (f : Frame) : Verdict × Conntab :=
  if parses f then
    let tcp := tcpOffset f
    if rst f tcp then (.drop, update tab (connKey f tcp) none)
    else if syn f tcp ∧ ¬ ack f tcp then (answerSyn h f tcp, tab)
    else if ¬ ack f tcp then (.pass, tab)
    else answerAck h tab f tcp
  else (.pass, tab)

/-! ### What a packet can do -/

/-- The payload of a packet is at least the route's request line, and starts with it. -/
def Requests (f : Frame) (tcp payloadLen : Nat) : Prop :=
  0 < payloadLen ∧ matchRoute f (tcp + thl f tcp) payloadLen = true

/-- The outcomes of `serve` on the entry `st`. -/
inductive Served (h : Helpers) (f : Frame) (tcp n : Nat) (st : Conn) : Verdict → Conn → Prop where
  | dropped : Served h f tcp n st .drop st
  | aborted : Served h f tcp n st .aborted st
  | respond {out : Frame} (hs : st.state = .estab) (hr : Requests f tcp n)
      (ho : answerData h f tcp st.serverSeq (f.be32 (tcp + 4) + BitVec.ofNat 32 n) = some out) :
      Served h f tcp n st (.tx .response out)
        { st with serverSeq := st.serverSeq + 41 + 1,
                  clientSeq := f.be32 (tcp + 4) + BitVec.ofNat 32 n, state := .respSent }
  | respondAgain {out : Frame} (hs : st.state = .respSent) (hr : Requests f tcp n)
      (ho : answerData h f tcp (st.serverSeq - 41 - 1) st.clientSeq = some out) :
      Served h f tcp n st (.tx .response out) st
  | close {out : Frame} (hs : st.state = .respSent)
      (ho : answerFin h f tcp st.serverSeq (f.be32 (tcp + 4) + BitVec.ofNat 32 n + 1) = some out) :
      Served h f tcp n st (.tx .finack out)
        { st with state := .closed, clientSeq := f.be32 (tcp + 4) + BitVec.ofNat 32 n + 1 }
  | closeAgain {out : Frame} (hs : st.state = .closed)
      (ho : answerFin h f tcp st.serverSeq st.clientSeq = some out) :
      Served h f tcp n st (.tx .finack out) st

theorem serve_served (h : Helpers) (f : Frame) (tcp n : Nat) (st : Conn) :
    Served h f tcp n st (serve h f tcp n st).1 (serve h f tcp n st).2 := by
  unfold serve
  by_cases hfin : fin f tcp = true ∧ (st.state = .respSent ∨ st.state = .closed)
  · rw [if_pos hfin]
    rcases hfin.2 with hs | hs
    · simp only [hs, if_true]
      cases ho : answerFin h f tcp st.serverSeq (f.be32 (tcp + 4) + BitVec.ofNat 32 n + 1) with
      | none => exact .aborted
      | some out => exact .close hs ho
    · simp only [hs, reduceCtorEq, if_false]
      cases ho : answerFin h f tcp st.serverSeq st.clientSeq with
      | none => exact .aborted
      | some out => exact .closeAgain hs ho
  rw [if_neg hfin]
  by_cases hdata : 0 < n ∧ (st.state = .estab ∨ st.state = .respSent)
  · rw [if_pos hdata]
    by_cases hroute : matchRoute f (tcp + thl f tcp) n = true
    · rw [if_pos hroute]
      rcases hdata.2 with hs | hs
      · simp only [hs, if_true]
        cases ho : answerData h f tcp st.serverSeq (f.be32 (tcp + 4) + BitVec.ofNat 32 n) with
        | none => exact .aborted
        | some out => exact .respond hs ⟨hdata.1, hroute⟩ ho
      · simp only [hs, reduceCtorEq, if_false]
        cases ho : answerData h f tcp (st.serverSeq - 41 - 1) st.clientSeq with
        | none => exact .aborted
        | some out => exact .respondAgain hs ⟨hdata.1, hroute⟩ ho
    · rw [if_neg hroute]
      exact .dropped
  · rw [if_neg hdata]
    exact .dropped

/-- The payload's length, from the IP header's total length. -/
def payloadLen (f : Frame) : Nat := (f.be16 16).toNat - ihl f - thl f (tcpOffset f)

/-- The outcomes of the program on a packet. -/
inductive Handled (h : Helpers) (tab : Conntab) (f : Frame) : Verdict → Conntab → Prop where
  | passed : Handled h tab f .pass tab
  | refused : Handled h tab f .drop tab
  | reset (hp : parses f = true) (hr : rst f (tcpOffset f) = true) :
      Handled h tab f .drop (update tab (connKey f (tcpOffset f)) none)
  | syn (hp : parses f = true) : Handled h tab f (answerSyn h f (tcpOffset f)) tab
  | known {st st' : Conn} {v : Verdict} (hp : parses f = true)
      (hk : tab (connKey f (tcpOffset f)) = some st)
      (hs : Served h f (tcpOffset f) (payloadLen f) st v st') :
      Handled h tab f v (update tab (connKey f (tcpOffset f)) (some st'))
  | opened {st' : Conn} {v : Verdict} (hp : parses f = true)
      (hk : tab (connKey f (tcpOffset f)) = none) (ha : ack f (tcpOffset f) = true)
      (hc : 0 ≤ h.checkSyncookie f (tcpOffset f))
      (hs : Served h f (tcpOffset f) (payloadLen f) (newConn f (tcpOffset f)) v st') :
      Handled h tab f v (update tab (connKey f (tcpOffset f)) (some st'))

theorem answerAck_handled (h : Helpers) (tab : Conntab) (f : Frame) (hp : parses f = true)
    (ha : ack f (tcpOffset f) = true) :
    Handled h tab f (answerAck h tab f (tcpOffset f)).1 (answerAck h tab f (tcpOffset f)).2 := by
  unfold answerAck
  dsimp only
  by_cases hhl : thl f (tcpOffset f) < 20 ∨ tcpOffset f + thl f (tcpOffset f) > f.len
  · rw [if_pos hhl]
    exact .refused
  rw [if_neg hhl]
  by_cases htot : (f.be16 16).toNat < ihl f + thl f (tcpOffset f)
  · rw [if_pos htot]
    exact .refused
  rw [if_neg htot]
  cases hk : tab (connKey f (tcpOffset f)) with
  | some st => exact .known hp hk (serve_served ..)
  | none =>
      by_cases hc : h.checkSyncookie f (tcpOffset f) < 0
      · simp only [hc, if_true]
        exact .passed
      simp only [hc, if_false]
      cases h.inserted with
      | true => exact .opened hp hk ha (Int.not_lt.mp hc) (serve_served ..)
      | false => exact .refused

/-- **What the program can do.** -/
theorem sliceMain_handled (h : Helpers) (tab : Conntab) (f : Frame) :
    Handled h tab f (sliceMain h tab f).1 (sliceMain h tab f).2 := by
  unfold sliceMain
  by_cases hp : parses f = true
  · simp only [hp, if_true]
    by_cases hr : rst f (tcpOffset f) = true
    · simp only [hr, if_true]
      exact .reset hp hr
    by_cases hs : syn f (tcpOffset f) = true ∧ ¬ ack f (tcpOffset f) = true
    · simp only [hr, hs, if_false, Bool.false_eq_true]
      exact .syn hp
    by_cases ha : ack f (tcpOffset f) = true
    · simp only [hr, ha, if_false, Bool.false_eq_true, not_true, and_false]
      exact answerAck_handled h tab f hp ha
    · simp only [hr, ha, if_false, if_true, Bool.false_eq_true, not_false_eq_true, and_true] at hs ⊢
      simp only [hs]
      exact .passed
  · simp only [hp, if_false, Bool.false_eq_true]
    exact .passed

/-- The TCP header starts behind a whole IP header. -/
theorem le_tcpOffset {f : Frame} (hp : parses f = true) : 34 ≤ tcpOffset f := by
  simp only [parses, decide_eq_true_eq] at hp
  unfold tcpOffset
  omega

/-! ### What the parts leave -/

theorem resize_some {h : Helpers} {f g : Frame} {want : Nat} (hg : resize h f want = some g) :
    g.len = want ∧ g.byte = f.byte := by
  unfold resize adjustTail at hg
  split at hg
  · split at hg
    · cases hg
      exact ⟨by simp, rfl⟩
    · cases hg
  · cases hg
    exact ⟨by simp_all, rfl⟩

/-- A frame with the IP checksum's field clear, then filled, and the TCP checksum's clear. -/
def ipSummed (f : Frame) (tcp : Nat) (check : BitVec 16) : Frame :=
  ((f.setLe16 24 0).setLe16 24 check).setLe16 (tcp + 16) 0

/-- A recomputation that succeeds, with the two values the checksum helper returned. -/
structure Recomputed (h : Helpers) (f : Frame) (tcp seglen : Nat) (g : Frame) where
  ip : Int
  seg : Int
  ip_eq : h.csumDiff (segment (f.setLe16 24 0).byte 14 20) = ip
  ip_nonneg : 0 ≤ ip
  fits : tcp + seglen ≤ f.len
  seg_eq : h.csumDiff (segment (ipSummed f tcp (csumFold (BitVec.ofInt 32 ip))).byte tcp seglen) =
    seg
  seg_nonneg : 0 ≤ seg
  frame_eq : g = (ipSummed f tcp (csumFold (BitVec.ofInt 32 ip))).setLe16 (tcp + 16)
    (csumTcpudp ((ipSummed f tcp (csumFold (BitVec.ofInt 32 ip))).le32 26)
      ((ipSummed f tcp (csumFold (BitVec.ofInt 32 ip))).le32 30) seglen 6 (BitVec.ofInt 32 seg))

theorem recomputeCsums_some {h : Helpers} {f g : Frame} {tcp seglen : Nat}
    (hg : recomputeCsums h f tcp seglen = some g) : Nonempty (Recomputed h f tcp seglen g) := by
  unfold recomputeCsums at hg
  dsimp only at hg
  split at hg
  · cases hg
  rename_i hip
  split at hg
  · cases hg
  rename_i hfits
  split at hg
  · cases hg
  rename_i hseg
  cases hg
  exact ⟨⟨_, _, rfl, Int.not_lt.mp hip, Nat.not_lt.mp hfits, rfl, Int.not_lt.mp hseg, rfl⟩⟩

end SpinelEbpf.Tcp

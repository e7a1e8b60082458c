import SpinelEbpf.Tcp.Slice

/-!
# Tcp — replies

A reply is built in place in the frame it answers.  `Turned` and `Replied` say what the builders
leave in the headers and which stores keep it; `Recomputed.onesSum_ip` and
`Recomputed.onesSum_tcp` say that the recomputed checksums are right, given a helper that returns a
sum congruent to that of the bytes it is handed (`Helpers.Sums`).

The builders write the TCP header where the packet's was, behind its IP options, and then declare an
IP header without options.  So a reply is well formed when the packet had none
(`reply_wellFormed`), and with one word of options it is not (`options_malform_reply`).
-/

namespace SpinelEbpf.Tcp

open Checksum

/-! ### The numbers in a reply -/

variable {f g out b : Frame} {h : Helpers} {tcp a n : Nat} {totLen : BitVec 16}
  {cli srv : BitVec 32} {doff : Byte} {kind : Reply}

theorem be32_of_byte_eq (h : g.byte = f.byte) (a : Nat) : g.be32 a = f.be32 a := by
  simp only [Frame.be32, h]

theorem Recomputed.be32_eq {seglen : Nat} (r : Recomputed h f tcp seglen g) (ha : 26 ≤ a)
    (ha' : a + 4 ≤ tcp + 16) :
    g.be32 a = f.be32 a := by
  rw [r.frame_eq]
  simp (disch := omega) only [ipSummed, Frame.be32_blit_off]

theorem be32_replyIp (ha : 26 ≤ a) :
    (replyIp f totLen).be32 a = f.be32 a := by
  simp (disch := omega) only [replyIp, Frame.be32_blit_off]

theorem replyHeader_numbers (f : Frame) (tcp : Nat) (seq ackSeq : BitVec 32) (flags doff : Byte) :
    (replyHeader f tcp seq ackSeq flags doff).be32 (tcp + 4) = seq ∧
      (replyHeader f tcp seq ackSeq flags doff).be32 (tcp + 8) = ackSeq := by
  constructor <;>
    simp (disch := omega) only [replyHeader, Frame.be32_blit_off, Frame.be32_setBe32]

theorem answerFin_numbers (htcp : 34 ≤ tcp) (ho : answerFin h f tcp srv cli = some out) :
    out.be32 (tcp + 4) = srv ∧ out.be32 (tcp + 8) = cli := by
  unfold answerFin at ho
  cases hg : recomputeCsums h (buildFinack f tcp srv cli) tcp 20 with
  | none => simp [hg] at ho
  | some g =>
      obtain ⟨r⟩ := recomputeCsums_some hg
      rw [hg] at ho
      have hbyte := (resize_some ho).2
      obtain ⟨hs, hc⟩ := replyHeader_numbers f tcp srv cli
        (tcpFlags false false false false true false false false) 5
      rw [be32_of_byte_eq hbyte, be32_of_byte_eq hbyte, r.be32_eq (by omega) (by omega),
        r.be32_eq (by omega) (by omega), buildFinack, be32_replyIp (by omega),
        be32_replyIp (by omega)]
      exact ⟨hs, hc⟩

theorem answerData_numbers (htcp : 34 ≤ tcp) (ho : answerData h f tcp srv cli = some out) :
    out.be32 (tcp + 4) = srv ∧ out.be32 (tcp + 8) = cli := by
  unfold answerData buildResponse at ho
  dsimp only at ho
  split at ho
  · cases ho
  rename_i f' hb
  split at hb
  · cases hb
  cases hb
  split at ho
  · cases ho
  rename_i g hg
  obtain ⟨r⟩ := recomputeCsums_some hg
  have hbyte := (resize_some ho).2
  obtain ⟨hs, hc⟩ := replyHeader_numbers f tcp srv cli
    (tcpFlags true false false true true false false false) 5
  rw [be32_of_byte_eq hbyte, be32_of_byte_eq hbyte, r.be32_eq (by omega) (by omega),
    r.be32_eq (by omega) (by omega), be32_replyIp (by omega), be32_replyIp (by omega),
    Frame.be32_blit_off (by omega), Frame.be32_blit_off (by omega)]
  exact ⟨hs, hc⟩

/-! ### Checksums -/

/-- The checksum helper returns a 32-bit sum congruent to that of the bytes, or an error. -/
def Helpers.Sums (h : Helpers) : Prop :=
  ∀ bytes, 0 ≤ h.csumDiff bytes →
    h.csumDiff bytes < 2 ^ 32 ∧ h.csumDiff bytes % 65535 = leSum bytes % 65535

/-- One folding step. -/
theorem toNat_fold (x : BitVec 32) :
    ((x &&& 0xffff#32) + (x >>> 16)).toNat = x.toNat % 65536 + x.toNat / 65536 := by
  have hx := x.isLt
  have hmask : x.toNat &&& (0xffff#32).toNat = x.toNat % 65536 :=
    Nat.and_two_pow_sub_one_eq_mod x.toNat 16
  rw [BitVec.toNat_add, BitVec.toNat_and, BitVec.toNat_ushiftRight, Nat.shiftRight_eq_div_pow,
    hmask]
  omega

theorem toNat_csumFold (c : BitVec 32) : (c.toNat + (csumFold c).toNat) % 65535 = 0 := by
  have hc := c.isLt
  have hnot (x : BitVec 32) (hx : x.toNat ≤ 65535) :
      ((~~~x).setWidth 16).toNat = 65535 - x.toNat := by
    rw [BitVec.toNat_setWidth, BitVec.toNat_not]
    omega
  unfold csumFold
  dsimp only
  rw [hnot, toNat_fold, toNat_fold]
  · omega
  · rw [toNat_fold, toNat_fold]
    omega

theorem foldCarries_residue (s : Nat) (hs : s < 2 ^ 64) :
    foldCarries 2 s < 2 ^ 32 ∧ foldCarries 2 s % 65535 = s % 65535 := by
  simp only [foldCarries]
  split
  · split <;> omega
  · omega

/-- Swapping the bytes of a word multiplies it by `256`. -/
theorem htons_residue (h : n < 65536) :
    htons n < 65536 ∧ htons n % 65535 = 256 * n % 65535 := by
  have hsplit : 256 * n = htons n + 65535 * (n / 256) := by
    unfold htons
    omega
  rw [hsplit, Nat.add_mul_mod_self_left]
  refine ⟨?_, rfl⟩
  unfold htons
  omega

theorem toNat_csumTcpudp {saddr daddr csum : BitVec 32} {len proto : Nat}
    (h : proto + len < 65536) :
    (csum.toNat + saddr.toNat + daddr.toNat + 256 * (proto + len) +
      (csumTcpudp saddr daddr len proto csum).toNat) % 65535 = 0 := by
  have h₁ := saddr.isLt
  have h₂ := daddr.isLt
  have h₃ := csum.isLt
  obtain ⟨hbound, hswap⟩ := htons_residue h
  obtain ⟨hlt, hres⟩ := foldCarries_residue
    (csum.toNat + saddr.toNat + daddr.toNat + htons (proto + len)) (by omega)
  have hfold := toNat_csumFold (BitVec.ofNat 32
    (foldCarries 2 (csum.toNat + saddr.toNat + daddr.toNat + htons (proto + len))))
  rw [BitVec.toNat_ofNat, Nat.mod_eq_of_lt hlt] at hfold
  unfold csumTcpudp
  dsimp only
  omega

/-- The pseudo header that a TCP checksum covers: addresses, zero, protocol, segment length. -/
def pseudoHeader (f : Frame) (seglen : Nat) : List Byte :=
  segment f.byte 26 8 ++ [0, f.byte 23, BitVec.ofNat 8 (seglen / 256), BitVec.ofNat 8 seglen]

theorem leSum_addrs (f : Frame) :
    leSum (segment f.byte 26 8) % 65535 = ((f.le32 26).toNat + (f.le32 30).toNat) % 65535 := by
  rw [Frame.toNat_le32, Frame.toNat_le32]
  simp only [Checksum.segment, List.range, List.range.loop, List.map_cons, List.map_nil,
    leSum_cons_cons, leSum_nil, Nat.reduceAdd]
  omega

theorem leSum_pos {start : Nat} (hn : 2 ≤ n) (h : f.byte start ≠ 0) :
    0 < leSum (segment f.byte start n) := by
  obtain ⟨k, rfl⟩ : ∃ k, n = 0 + (2 + k) := ⟨n - 2, by omega⟩
  have hpos : (f.byte start).toNat ≠ 0 := fun hz => h (BitVec.eq_of_toNat_eq hz)
  rw [leSum_segment_cut f.byte start rfl]
  simp only [Nat.add_zero]
  omega

section Recomputed

variable {seglen : Nat}

/-- The frame after a recomputation, off the TCP checksum. -/
theorem Recomputed.byte_eq (r : Recomputed h f tcp seglen g) (ha : a < tcp + 16 ∨ tcp + 18 ≤ a) :
    g.byte a = (ipSummed f tcp (csumFold (BitVec.ofInt 32 r.ip))).byte a :=
  (congrArg (Frame.byte · a) r.frame_eq).trans (Frame.byte_blit_off (by omega))

/-- While the segment is summed its checksum is zero. -/
theorem ipSummed_tcp (f : Frame) (tcp : Nat) (check : BitVec 16) :
    (ipSummed f tcp check).byte (tcp + 16) = 0 ∧ (ipSummed f tcp check).byte (tcp + 17) = 0 := by
  rw [ipSummed, Frame.byte_blit_on (by omega) (by omega), Frame.byte_blit_on (by omega) (by omega)]
  simp

/-- The helper's value as the program truncates it. -/
theorem toNat_ofInt_32 {v : Int} (hv : 0 ≤ v) (hlt : v < 2 ^ 32) :
    (BitVec.ofInt 32 v).toNat = v.toNat := by
  rw [BitVec.toNat_ofInt]
  omega

/-- **The IP checksum.**  With the TCP header right behind it, the header sums to `0xFFFF`. -/
theorem Recomputed.onesSum_ip (hsum : h.Sums) (r : Recomputed h f 34 seglen g)
    (hne : f.byte 14 ≠ 0) : onesSum (segment g.byte 14 20) = 65535 := by
  let f₀ := f.setLe16 24 0
  let f₁ := f₀.setLe16 24 (csumFold (BitVec.ofInt 32 r.ip))
  have hseg : segment g.byte 14 20 = segment f₁.byte 14 20 :=
    segment_congr fun a _ ha => by
      rw [r.byte_eq (by omega), ipSummed, Frame.byte_blit_off (by omega)]
  have hword : leSum (segment f₁.byte 14 20) = leSum (segment f₀.byte 14 20) +
      ((f₁.byte 24).toNat + 256 * (f₁.byte 25).toNat) :=
    leSum_segment_word (i := 10) rfl (by omega)
      (Frame.byte_blit_on (by omega) (by omega)) (Frame.byte_blit_on (by omega) (by omega))
      fun a ha ha' => Frame.byte_blit_off (by omega)
  rw [Frame.toNat_setLe16] at hword
  have hpos : 0 < leSum (segment f₀.byte 14 20) :=
    leSum_pos (by omega) (by rwa [Frame.byte_blit_off (by omega)])
  have hval : h.csumDiff (segment f₀.byte 14 20) = r.ip := r.ip_eq
  have hnonneg := r.ip_nonneg
  obtain ⟨hlt, hres⟩ := hsum (segment f₀.byte 14 20) (hval ▸ hnonneg)
  rw [hval] at hlt hres
  have hfold := toNat_csumFold (BitVec.ofInt 32 r.ip)
  rw [toNat_ofInt_32 hnonneg hlt] at hfold
  rw [onesSum_eq_iff, hseg, hword]
  omega

/-- **The TCP checksum.**  With the TCP header right behind the IP header, the pseudo header and
the segment sum to `0xFFFF`. -/
theorem Recomputed.onesSum_tcp (hsum : h.Sums) (r : Recomputed h f 34 seglen g)
    (hproto : f.byte 23 = 6) (hle : 18 ≤ seglen) (hlt : seglen < 65530) :
    onesSum (pseudoHeader g seglen ++ segment g.byte 34 seglen) = 65535 := by
  let f₁ := ipSummed f 34 (csumFold (BitVec.ofInt 32 r.ip))
  have hword : leSum (segment g.byte 34 seglen) = leSum (segment f₁.byte 34 seglen) +
      ((g.byte 50).toNat + 256 * (g.byte 51).toNat) :=
    leSum_segment_word (i := 16) rfl (by omega) (ipSummed_tcp ..).1 (ipSummed_tcp ..).2
      fun a ha ha' => r.byte_eq (by omega)
  have hcheck : (g.byte 50).toNat + 256 * (g.byte 51).toNat =
      (csumTcpudp (f₁.le32 26) (f₁.le32 30) seglen 6 (BitVec.ofInt 32 r.seg)).toNat := by
    have := Frame.toNat_setLe16 f₁ 50
      (csumTcpudp (f₁.le32 26) (f₁.le32 30) seglen 6 (BitVec.ofInt 32 r.seg))
    rwa [← r.frame_eq] at this
  have haddrs : leSum (segment g.byte 26 8) = leSum (segment f₁.byte 26 8) :=
    congrArg leSum (segment_congr fun a _ ha => r.byte_eq (by omega))
  have hg : g.byte 23 = 6 := by
    rw [r.byte_eq (by omega), ipSummed, Frame.byte_blit_off (by omega),
      Frame.byte_blit_off (by omega), Frame.byte_blit_off (by omega), hproto]
  have hpseudo : leSum (pseudoHeader g seglen) =
      leSum (segment f₁.byte 26 8) + 256 * 6 + htons seglen := by
    rw [pseudoHeader, leSum_append (by simp), haddrs, hg]
    simp [htons]
    omega
  have hswap := (@htons_residue seglen (by omega)).2
  have hval : h.csumDiff (segment f₁.byte 34 seglen) = r.seg := r.seg_eq
  have hnonneg := r.seg_nonneg
  obtain ⟨hlt', hres⟩ := hsum (segment f₁.byte 34 seglen) (hval ▸ hnonneg)
  rw [hval] at hlt' hres
  have htcp := @toNat_csumTcpudp (f₁.le32 26) (f₁.le32 30) (BitVec.ofInt 32 r.seg) seglen 6
    (by omega)
  rw [toNat_ofInt_32 hnonneg hlt'] at htcp
  have hmod := leSum_addrs f₁
  rw [onesSum_eq_iff, leSum_append (by simp [pseudoHeader]), hword, hcheck, hpseudo]
  omega

end Recomputed

/-! ### Headers -/

/-- `g` is `f` turned around: addresses and ports exchanged, and a TCP header of `doff` words. -/
structure Turned (f g : Frame) (tcp : Nat) (doff : Byte) : Prop where
  macs : ∀ i, i < 6 → g.byte i = f.byte (6 + i) ∧ g.byte (6 + i) = f.byte i
  protocol : g.byte 23 = f.byte 23
  addrs : g.be32 26 = f.be32 30 ∧ g.be32 30 = f.be32 26
  ports : g.be16 tcp = f.be16 (tcp + 2) ∧ g.be16 (tcp + 2) = f.be16 tcp
  doff : g.byte (tcp + 12) >>> 4 = doff

/-- A store to the rest of the IP header, or past the TCP header's length, changes none of it. -/
theorem Turned.blit {o : Nat} {src : Nat → Byte} (t : Turned f g tcp doff) (htcp : 34 ≤ tcp)
    (ho : (12 ≤ o ∧ o + n ≤ 23) ∨ (24 ≤ o ∧ o + n ≤ 26) ∨ tcp + 13 ≤ o) :
    Turned f (g.blit o n src) tcp doff where
  macs i hi := by
    rw [Frame.byte_blit_off (by omega), Frame.byte_blit_off (by omega)]
    exact t.macs i hi
  protocol := by
    rw [Frame.byte_blit_off (by omega)]
    exact t.protocol
  addrs := by
    rw [Frame.be32_blit_off (by omega), Frame.be32_blit_off (by omega)]
    exact t.addrs
  ports := by
    rw [Frame.be16_blit_off (by omega), Frame.be16_blit_off (by omega)]
    exact t.ports
  doff := by
    rw [Frame.byte_blit_off (by omega)]
    exact t.doff

theorem doff_nibble (b doff : Byte) (h : doff = 5 ∨ doff = 6) :
    ((doff <<< 4) ||| (b &&& 0x0f#8)) >>> 4 = doff := by
  rcases h with rfl | rfl <;> revert b <;> decide

theorem replyHeader_turned (htcp : 34 ≤ tcp) (seq ackSeq : BitVec 32) (flags : Byte)
    (hd : doff = 5 ∨ doff = 6) :
    Turned f (replyHeader f tcp seq ackSeq flags doff) tcp doff where
  macs i hi := by
    simp (disch := omega) only [replyHeader, swapPorts, swapAddrs, swapMac, Frame.byte_blit_off,
      Frame.byte_blit_on, Nat.sub_zero, Nat.add_sub_cancel_left, and_self]
  protocol := by
    simp (disch := omega) only [replyHeader, swapPorts, swapAddrs, swapMac, Frame.byte_blit_off]
  addrs := by
    simp (disch := omega) only [replyHeader, swapPorts, swapAddrs, swapMac, Frame.be32,
      Frame.byte_blit_off, Frame.byte_blit_on, Nat.reduceAdd, Nat.reduceSub, and_self]
  ports := by
    simp (disch := omega) only [replyHeader, swapPorts, swapAddrs, swapMac, Frame.be16,
      Frame.byte_blit_off, Frame.byte_blit_on, Nat.sub_self, Nat.add_sub_cancel_left, Nat.add_assoc,
      Nat.add_sub_add_left, Nat.reduceAdd, Nat.reduceSub, Nat.add_zero, and_self]
  doff := by
    simp (disch := omega) only [replyHeader, Frame.byte_blit_off, Frame.byte_blit_on]
    exact doff_nibble _ doff hd

/-- A turned frame whose IP header says five words and `totLen` bytes. -/
structure Replied (f g : Frame) (tcp : Nat) (doff : Byte) (totLen : BitVec 16) : Prop
    extends Turned f g tcp doff where
  ihl : g.byte 14 &&& 0x0f#8 = 5#8
  totLen : g.be16 16 = totLen

theorem ihl_nibble (b : Byte) : ((b &&& 0xf0#8) ||| 5#8) &&& 0x0f#8 = 5#8 := by
  revert b
  decide

theorem Turned.replyIp (t : Turned f g tcp doff)
    (htcp : 34 ≤ tcp) (totLen : BitVec 16) : Replied f (replyIp g totLen) tcp doff totLen where
  toTurned := by
    unfold Tcp.replyIp
    exact (((t.blit htcp (by omega)).blit htcp (by omega)).blit htcp (by omega)).blit htcp
      (by omega)
  ihl := by
    simp (disch := omega) only [Tcp.replyIp, Frame.byte_blit_off, Frame.byte_blit_on]
    exact ihl_nibble _
  totLen := by
    simp (disch := omega) only [Tcp.replyIp, Frame.be16_blit_off, Frame.be16_setBe16]

theorem Replied.blit {o : Nat}
    {src : Nat → Byte} (t : Replied f g tcp doff totLen) (htcp : 34 ≤ tcp)
    (ho : (24 ≤ o ∧ o + n ≤ 26) ∨ tcp + 13 ≤ o) : Replied f (g.blit o n src) tcp doff totLen where
  toTurned := t.toTurned.blit htcp (by omega)
  ihl := by
    rw [Frame.byte_blit_off (by omega)]
    exact t.ihl
  totLen := by
    rw [Frame.be16_blit_off (by omega)]
    exact t.totLen

/-! ### Well-formed replies -/

/-- `out` is a well-formed reply to `f`: its IP header has no options and covers the frame, the
TCP header is right behind it, everything is addressed back, and both checksums are right. -/
structure WellFormedReply (f out : Frame) : Prop where
  ihl : ihl out = 20
  len : out.len = 14 + (out.be16 16).toNat
  macs : ∀ i, i < 6 → out.byte i = f.byte (6 + i) ∧ out.byte (6 + i) = f.byte i
  addrs : out.be32 26 = f.be32 30 ∧ out.be32 30 = f.be32 26
  ports : out.be16 34 = f.be16 (tcpOffset f + 2) ∧ out.be16 36 = f.be16 (tcpOffset f)
  tcpHeader : 20 ≤ thl out 34 ∧ 34 + thl out 34 ≤ out.len
  ipSum : onesSum (segment out.byte 14 20) = 0xFFFF
  tcpSum : onesSum (pseudoHeader out ((out.be16 16).toNat - 20) ++
    segment out.byte 34 ((out.be16 16).toNat - 20)) = 0xFFFF

/-- From a built reply to the frame that leaves. -/
theorem Replied.wellFormed {seglen : Nat} (hsum : h.Sums) (htcp : tcpOffset f = 34)
    (hproto : f.byte 23 = 6) (rep : Replied f b 34 doff totLen)
    (hg : recomputeCsums h b 34 seglen = some g) (ho : resize h g (34 + seglen) = some out)
    (htot : totLen.toNat = 20 + seglen) (hdoff : 20 ≤ doff.toNat * 4 ∧ doff.toNat * 4 ≤ seglen)
    (hlt : seglen < 65530) :
    WellFormedReply f out := by
  obtain ⟨r⟩ := recomputeCsums_some hg
  obtain ⟨hlen, hbyte⟩ := resize_some ho
  have rep' : Replied f g 34 doff totLen := by
    rw [r.frame_eq, ipSummed]
    exact (((rep.blit (by omega) (by omega)).blit (by omega) (by omega)).blit (by omega)
      (by omega)).blit (by omega) (by omega)
  have hne : b.byte 14 ≠ 0 := fun hz => absurd rep.ihl (by rw [hz]; decide)
  have hip := r.onesSum_ip hsum hne
  have htcpSum := r.onesSum_tcp hsum (rep.protocol.trans hproto) (by omega) hlt
  obtain ⟨n, byte⟩ := out
  obtain rfl : byte = g.byte := hbyte
  obtain rfl : n = 34 + seglen := hlen
  have hseg : (g.be16 16).toNat - 20 = seglen := by
    rw [rep'.totLen]
    omega
  have hthl : thl g 34 = doff.toNat * 4 := congrArg (BitVec.toNat · * 4) rep'.doff
  exact {
    ihl := congrArg (BitVec.toNat · * 4) rep'.ihl
    len := by
      change 34 + seglen = 14 + (g.be16 16).toNat
      rw [rep'.totLen]
      omega
    macs := rep'.macs
    addrs := rep'.addrs
    ports := by
      rw [htcp]
      exact rep'.ports
    tcpHeader := by
      change 20 ≤ thl g 34 ∧ 34 + thl g 34 ≤ 34 + seglen
      rw [hthl]
      omega
    ipSum := hip
    tcpSum := by
      change onesSum (pseudoHeader g ((g.be16 16).toNat - 20) ++
        segment g.byte 34 ((g.be16 16).toNat - 20)) = 65535
      rw [hseg]
      exact htcpSum }

/-- A SYN-ACK that leaves, with the frame after the first resize. -/
theorem answerSyn_tx (ho : answerSyn h f (tcpOffset f) = .tx kind out) :
    kind = .synack ∧
      ∃ n cookie mss b g, buildSynack { f with len := n } (tcpOffset f) cookie mss = some b ∧
        recomputeCsums h (replyIp b (20 + 24)) (tcpOffset f) 24 = some g ∧
        resize h g (14 + 20 + 24) = some out := by
  unfold answerSyn adjustTail at ho
  dsimp only at ho
  split at ho
  · cases ho
  split at ho
  · cases ho
  rename_i f' hf'
  split at hf'
  swap
  · cases hf'
  cases hf'
  split at ho
  · cases ho
  split at ho
  · cases ho
  split at ho
  · cases ho
  split at ho
  · cases ho
  split at ho
  · cases ho
  rename_i b hb
  split at ho
  · cases ho
  rename_i g hg
  split at ho
  · cases ho
  rename_i out' ho'
  cases ho
  exact ⟨rfl, _, _, _, b, g, hb, hg, ho'⟩

theorem buildSynack_turned {cookie : BitVec 32} {mss : BitVec 16} (htcp : 34 ≤ tcp)
    (hb : buildSynack f tcp cookie mss = some b) : Turned f b tcp 6 := by
  unfold buildSynack at hb
  dsimp only at hb
  split at hb
  · cases hb
  cases hb
  exact ((((replyHeader_turned htcp _ _ _ (by decide)).blit htcp (by omega)).blit htcp
    (by omega)).blit htcp (by omega)).blit htcp (by omega)

theorem buildResponse_replied (htcp : 34 ≤ tcp) (hb : buildResponse f tcp srv cli = some b) :
    Replied f b tcp 5 81 := by
  unfold buildResponse at hb
  dsimp only at hb
  split at hb
  · cases hb
  cases hb
  exact ((replyHeader_turned htcp _ _ _ (by decide)).blit htcp (by omega)).replyIp htcp 81

theorem buildFinack_replied (f : Frame) (srv cli : BitVec 32) (htcp : 34 ≤ tcp) :
    Replied f (buildFinack f tcp srv cli) tcp 5 40 :=
  (replyHeader_turned htcp _ _ _ (by decide)).replyIp htcp 40

section Answers

variable (hsum : h.Sums) (htcp : tcpOffset f = 34) (hproto : f.byte 23 = 6)

include hsum htcp hproto

theorem answerSyn_wellFormed (ho : answerSyn h f (tcpOffset f) = .tx kind out) :
    WellFormedReply f out := by
  obtain ⟨-, n, cookie, mss, b, g, hb, hg, hout⟩ := answerSyn_tx ho
  rw [htcp] at hb hg
  have ⟨hm, hp, ha, hports, hd⟩ := buildSynack_turned (by omega) hb
  have t : Turned f b 34 6 := ⟨hm, hp, ha, hports, hd⟩
  exact (t.replyIp (by omega) 44).wellFormed hsum htcp hproto hg hout rfl (by decide) (by decide)

theorem answerFin_wellFormed (ho : answerFin h f (tcpOffset f) srv cli = some out) :
    WellFormedReply f out := by
  unfold answerFin at ho
  rw [htcp] at ho
  split at ho
  · cases ho
  rename_i g hg
  exact (buildFinack_replied f srv cli (by omega)).wellFormed hsum htcp hproto hg ho rfl
    (by decide) (by decide)

theorem answerData_wellFormed (ho : answerData h f (tcpOffset f) srv cli = some out) :
    WellFormedReply f out := by
  unfold answerData at ho
  rw [htcp] at ho
  split at ho
  · cases ho
  rename_i b hb
  split at ho
  · cases ho
  rename_i g hg
  exact (buildResponse_replied (by omega) hb).wellFormed hsum htcp hproto hg ho rfl
    (by decide) (by decide)

/-- What a served packet is answered with is well formed. -/
theorem Served.wellFormed {st st' : Conn} {v : Verdict} (hs : Served h f (tcpOffset f) n st v st')
    (hv : v = .tx kind out) :
    WellFormedReply f out := by
  cases hs with
  | dropped | aborted => cases hv
  | respond _ _ ho | respondAgain _ _ ho =>
      cases hv
      exact answerData_wellFormed hsum htcp hproto ho
  | close _ ho | closeAgain _ ho =>
      cases hv
      exact answerFin_wellFormed hsum htcp hproto ho

end Answers

/-- **Replies are well formed.**  Whatever the packet, the connections and the helpers, a frame
that leaves is a well-formed reply if the packet's IP header has no options. -/
theorem reply_wellFormed {h : Helpers} (hsum : h.Sums) {tab : Conntab} {f out : Frame}
    {kind : Reply} (hihl : ihl f = 20) (htx : (sliceMain h tab f).1 = .tx kind out) :
    WellFormedReply f out := by
  have htcp : tcpOffset f = 34 := by rw [tcpOffset, hihl]
  have hproto (hp : parses f = true) : f.byte 23 = 6 := by
    simp only [parses, decide_eq_true_eq] at hp
    exact hp.2.2.2.1
  have hh := sliceMain_handled h tab f
  generalize (sliceMain h tab f).1 = v, (sliceMain h tab f).2 = tab' at hh htx
  cases hh with
  | passed | refused | reset _ _ => cases htx
  | syn hp => exact answerSyn_wellFormed hsum htcp (hproto hp) htx
  | known hp _ hs => exact hs.wellFormed hsum htcp (hproto hp) htx
  | opened hp _ _ _ hs => exact hs.wellFormed hsum htcp (hproto hp) htx

/-! ### With and without options -/

/-- Helpers that sum as they should and refuse nothing. -/
def plainHelpers : Helpers where
  adjustTail _ _ := true
  genSyncookie _ _ _ := 0
  checkSyncookie _ _ := 0
  csumDiff bytes := (leSum bytes % 65535 : Nat)
  inserted := true

theorem plainHelpers_sums : plainHelpers.Sums := by
  intro bytes _
  simp only [plainHelpers]
  omega

/-- A frame from its bytes. -/
def Frame.ofBytes (l : List Byte) : Frame := ⟨l.length, fun i => l.getD i 0⟩

/-- The client's FIN, behind an IP header of the given first byte, total length and options. -/
def finFrame (first totLen : Byte) (options : List Byte) : Frame :=
  .ofBytes ([1, 2, 3, 4, 5, 6, 7, 8, 9, 10, 11, 12, 0x08, 0x00] ++
    [first, 0, 0, totLen, 0, 0, 0, 0, 64, 6, 0, 0, 10, 0, 0, 1, 10, 0, 0, 2] ++ options ++
    [0x30, 0x39, 0x1f, 0x90, 0, 0, 0, 1, 0, 0, 0, 2, 0x50, 0x11, 0xff, 0xff, 0, 0, 0, 0])

/-- Every connection has been sent its response. -/
def allAnswered : Conntab := fun _ =>
  some { serverSeq := 1000, clientSeq := 1, mss := 1460, state := .respSent }

/-- The frame a verdict sends. -/
def Verdict.sent : Verdict → Option Frame
  | .tx _ out => some out
  | _ => none

theorem Verdict.eq_tx {v : Verdict} (h : v.sent = some out) :
    ∃ kind, v = .tx kind out := by
  cases v with
  | pass | drop | aborted => cases h
  | tx kind o =>
      cases h
      exact ⟨kind, rfl⟩

/-- The FIN-ACK to a FIN without options. -/
theorem reply_wellFormed_fin :
    ∃ kind out, (sliceMain plainHelpers allAnswered (finFrame 0x45 40 [])).1 = .tx kind out ∧
      WellFormedReply (finFrame 0x45 40 []) out := by
  have hsome : (sliceMain plainHelpers allAnswered (finFrame 0x45 40 [])).1.sent.isSome = true := by
    decide
  obtain ⟨out, hout⟩ := Option.isSome_iff_exists.mp hsome
  obtain ⟨kind, htx⟩ := Verdict.eq_tx hout
  exact ⟨kind, out, htx, reply_wellFormed plainHelpers_sums (by decide) htx⟩

/-- **With options the reply is malformed.**  The FIN-ACK to a FIN behind one word of options is
built behind the options, and leaves with an IP header that says there are none: where the TCP
header should start, the frame has the options. -/
theorem options_malform_reply :
    ∃ kind out,
      (sliceMain plainHelpers allAnswered (finFrame 0x46 44 [1, 1, 1, 0])).1 = .tx kind out ∧
        ¬ WellFormedReply (finFrame 0x46 44 [1, 1, 1, 0]) out := by
  have hports : (sliceMain plainHelpers allAnswered (finFrame 0x46 44 [1, 1, 1, 0])).1.sent.map
      (fun out => out.be16 34) = some 0x0101 := by
    decide
  obtain ⟨out, hout, hport⟩ := Option.map_eq_some_iff.mp hports
  obtain ⟨kind, htx⟩ := Verdict.eq_tx hout
  refine ⟨kind, out, htx, fun hw => ?_⟩
  have hdest : (finFrame 0x46 44 [1, 1, 1, 0]).be16
      (tcpOffset (finFrame 0x46 44 [1, 1, 1, 0]) + 2) = 8080 := by
    decide
  have := hw.ports.1
  rw [hdest, hport] at this
  exact absurd this (by decide)

end SpinelEbpf.Tcp

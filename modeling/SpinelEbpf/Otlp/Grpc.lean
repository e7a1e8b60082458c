import Mathlib
import SpinelEbpf.Support.Wire

/-!
# Otlp — gRPC over HTTP/2

`otlpGrpcExport` as the frames it writes: an empty SETTINGS frame, one HEADERS frame with the HPACK
block, one DATA frame with the length-prefixed message, and an acknowledgement for each SETTINGS and
PING frame it reads back. The bytes the peer sends are an input, and so is what the compressor makes
of the body.

* `length_headerBlock`: a header block that builds fits the buffer of 4096 bytes.
* `obeys_replies`: the acknowledgements keep the limits, whatever the peer sends.
* `export_conforms_iff`: the frames keep the protocol's default limits, and the DATA payload is the
  whole message, exactly when the message fits one frame.
-/

namespace SpinelEbpf.Otlp.Grpc

/-! ### Frames -/

def h2Data : UInt8 := 0x0
def h2Headers : UInt8 := 0x1
def h2Rststream : UInt8 := 0x3
def h2Settings : UInt8 := 0x4
def h2Ping : UInt8 := 0x6
def h2Goaway : UInt8 := 0x7
def flagAck : UInt8 := 0x1
def flagEndStream : UInt8 := 0x1
def flagEndHeaders : UInt8 := 0x4

def putBe24 (v : UInt32) : List UInt8 := [(v >>> 16).toUInt8, (v >>> 8).toUInt8, v.toUInt8]

def putBe32 (v : UInt32) : List UInt8 := (v >>> 24).toUInt8 :: putBe24 v

/-- The number of some bytes, the highest first. -/
def getBe (bs : List UInt8) : Nat := bs.foldl (fun n b => 256 * n + b.toNat) 0

/-- A frame as it is written: nine header bytes, and the payload. -/
structure Frame where
  header : List UInt8
  payload : List UInt8
  deriving DecidableEq, Repr

/-- The 24-bit length field. -/
def Frame.lengthField (f : Frame) : Nat := getBe (f.header.take 3)

def Frame.type (f : Frame) : Option UInt8 := f.header[3]?

/-- The length is a 32-bit number, of which the header carries 24 bits, and as many bytes of the
payload are written as it says. -/
def sendFrame (len : UInt32) (type flags : UInt8) (sid : UInt32) (payload : List UInt8) : Frame where
  header := putBe24 len ++ type :: flags :: putBe32 (sid &&& 0x7fffffff)
  payload := payload.take len.toNat

/-! ### The header block -/

/-- A C string, without its terminator. -/
abbrev Text := List UInt8

def text (s : String) : Text := s.toList.map fun c => UInt8.ofNat c.toNat

/-- The buffer the header block is built in. -/
def headerCapacity : Nat := 4096

/-- Append to the block, if it still fits. -/
def push (block bs : List UInt8) : Option (List UInt8) :=
  if headerCapacity < block.length + bs.length then none else some (block ++ bs)

/-- A string length, an integer with a prefix of seven bits. -/
def hpackStrlen (block : List UInt8) (len : Nat) : Option (List UInt8) :=
  if len < 127 then push block [UInt8.ofNat len]
  else do
    let block ← push block [0x7F]
    (Wire.varint (len - 127)).foldlM (fun block b => push block [b]) block

/-- A literal header field without indexing. -/
def hpackLit (block : List UInt8) (name val : Text) : Option (List UInt8) := do
  let block ← push block [0x00]
  let block ← hpackStrlen block name.length
  let block ← push block name
  let block ← hpackStrlen block val.length
  push block val

/-- What is exported, and what the environment says about it. -/
structure Request where
  host : Text
  port : Text
  grpcPath : Text
  body : List UInt8
  /-- The compressed body, when compression is on and the result fits its buffer. -/
  gzip : Option (List UInt8)
  /-- The headers of the environment, at most 16 of them. -/
  headers : List (Text × Text)
  deriving DecidableEq, Repr

/-- `host:port` in a buffer of 300 bytes. -/
def authority (req : Request) : Text := (req.host ++ text ":" ++ req.port).take 299

def lowerByte (ch : UInt8) : UInt8 := if 65 ≤ ch ∧ ch ≤ 90 then ch - 65 + 97 else ch

/-- A field name in lower case, in a buffer of 128 bytes. -/
def lowerKey (key : Text) : Text := (key.take 127).map lowerByte

/-- The pseudo-headers and the fixed fields, in their order. -/
def fixedFields (req : Request) : List (Text × Text) :=
  [(text ":method", text "POST"), (text ":scheme", text "http"), (text ":path", req.grpcPath),
   (text ":authority", authority req), (text "content-type", text "application/grpc+proto"),
   (text "te", text "trailers")] ++
  if req.gzip.isSome then [(text "grpc-encoding", text "gzip")] else []

def pushFields (block : List UInt8) (fields : List (Text × Text)) : Option (List UInt8) :=
  fields.foldlM (fun block f => hpackLit block f.1 f.2) block

def headerBlock (req : Request) : Except String (List UInt8) :=
  match pushFields [] (fixedFields req) with
  | none => .error "hpack build failed"
  | some block =>
      match pushFields block (req.headers.map fun h => (lowerKey h.1, h.2)) with
      | none => .error "hpack header too long"
      | some block => .ok block

/-! ### The message -/

/-- The bytes of the message: the body, compressed if the compressor did its work. -/
def Request.sent (req : Request) : List UInt8 := req.gzip.getD req.body

/-- The compressed flag of the message. -/
def Request.flag (req : Request) : UInt8 := if req.gzip.isSome then 1 else 0

/-- The length-prefixed message. -/
def message (req : Request) : List UInt8 :=
  req.flag :: putBe32 (UInt32.ofNat req.sent.length) ++ req.sent

/-! ### The response -/

/-- What the reading loop leaves: the acknowledgements it wrote and its two flags. -/
structure Response where
  frames : List Frame
  done : Bool
  errSeen : Bool
  deriving DecidableEq, Repr

/-- One more acknowledgement in front. -/
def Response.after (f : Frame) (r : Response) : Response := { r with frames := f :: r.frames }

/-- The reading loop over what the peer sends until it closes or the read times out. -/
def readFrames : Nat → List UInt8 → Response
  | 0, _ => ⟨[], false, false⟩
  | guard + 1, input =>
      let fh := input.take 9
      let rest := input.drop 9
      let flen := getBe (fh.take 3)
      let ftype := fh.getD 3 0
      let fflags := fh.getD 4 0
      let fsid := getBe ((fh.drop 5).take 4) % 2 ^ 31
      if input.length < 9 then ⟨[], false, false⟩
      -- too large to hold: skipped
      else if 16384 < flen then readFrames guard (rest.drop flen)
      else if rest.length < flen then ⟨[], false, false⟩
      else if ftype = h2Settings then
        if fflags &&& flagAck = 0 then
          (readFrames guard (rest.drop flen)).after (sendFrame 0 h2Settings flagAck 0 [])
        else readFrames guard (rest.drop flen)
      else if ftype = h2Ping then
        if fflags &&& flagAck = 0 ∧ flen = 8 then
          (readFrames guard (rest.drop flen)).after
            (sendFrame 8 h2Ping flagAck 0 (rest.take flen))
        else readFrames guard (rest.drop flen)
      else if ftype = h2Goaway then ⟨[], true, true⟩
      else if ftype = h2Rststream then
        if fsid = 1 then ⟨[], true, true⟩ else readFrames guard (rest.drop flen)
      else if ftype = h2Headers ∨ ftype = h2Data then
        if fsid = 1 ∧ fflags &&& flagEndStream ≠ 0 then ⟨[], true, false⟩
        else readFrames guard (rest.drop flen)
      else readFrames guard (rest.drop flen)

/-! ### The export -/

/-- The frames one export writes after the preface, and how it ends: with an error message, or with
whether the call completed. -/
structure Exported where
  frames : List Frame
  result : Except String Bool

/-- One export over a connection that takes every write. -/
def otlpGrpcExport (req : Request) (incoming : List UInt8) : Exported :=
  let settings := sendFrame 0 h2Settings 0 0 []
  match headerBlock req with
  | .error msg => ⟨[settings], .error msg⟩
  | .ok block =>
      let headers := sendFrame (UInt32.ofNat block.length) h2Headers flagEndHeaders 1 block
      let msg := message req
      let data := sendFrame (UInt32.ofNat msg.length) h2Data flagEndStream 1 msg
      let response := readFrames 256 incoming
      ⟨settings :: headers :: data :: response.frames, .ok (response.done && !response.errSeen)⟩

/-! ### What is asked of it -/

/-- The default limit on a frame's payload. -/
def maxFrameSize : Nat := 16384

/-- The payload is within the default limit and as long as the length field says. -/
def Frame.Obeys (f : Frame) : Prop :=
  f.payload.length ≤ maxFrameSize ∧ f.lengthField = f.payload.length

/-- The payloads of the DATA frames, put together. -/
def dataPayload (frames : List Frame) : List UInt8 :=
  (frames.filter fun f => f.type == some h2Data).flatMap Frame.payload

/-- Every frame keeps the limits, and the DATA frames carry the compressed flag, the length of the
message's bytes in 32 bits and those bytes. -/
def Conforms (req : Request) (frames : List Frame) : Prop :=
  (∀ f ∈ frames, f.Obeys) ∧
    ∃ field, field.length = 4 ∧ getBe field = req.sent.length ∧
      dataPayload frames = req.flag :: field ++ req.sent

/-! ### The fields -/

theorem toNat_shiftRight_lt {v k : UInt32} (hk : k.toNat < 32) :
    (v >>> k).toNat = v.toNat / 2 ^ k.toNat := by
  rw [UInt32.toNat_shiftRight, Nat.shiftRight_eq_div_pow, Nat.mod_eq_of_lt hk]

theorem getBe_putBe24 (v : UInt32) : getBe (putBe24 v) = v.toNat % 2 ^ 24 := by
  have h16 : (v >>> 16).toNat = v.toNat / 2 ^ 16 := toNat_shiftRight_lt (by decide)
  have h8 : (v >>> 8).toNat = v.toNat / 2 ^ 8 := toNat_shiftRight_lt (by decide)
  simp only [getBe, putBe24, List.foldl_cons, List.foldl_nil, UInt32.toNat_toUInt8, h16, h8]
  omega

theorem getBe_putBe32 (v : UInt32) : getBe (putBe32 v) = v.toNat := by
  have hv := v.toNat_lt
  have h24 : (v >>> 24).toNat = v.toNat / 2 ^ 24 := toNat_shiftRight_lt (by decide)
  have h16 : (v >>> 16).toNat = v.toNat / 2 ^ 16 := toNat_shiftRight_lt (by decide)
  have h8 : (v >>> 8).toNat = v.toNat / 2 ^ 8 := toNat_shiftRight_lt (by decide)
  simp only [getBe, putBe32, putBe24, List.foldl_cons, List.foldl_nil, UInt32.toNat_toUInt8, h24,
    h16, h8]
  omega

theorem lengthField_sendFrame (len : UInt32) (type flags : UInt8) (sid : UInt32)
    (payload : List UInt8) :
    (sendFrame len type flags sid payload).lengthField = len.toNat % 2 ^ 24 :=
  getBe_putBe24 len

theorem type_sendFrame (len : UInt32) (type flags : UInt8) (sid : UInt32) (payload : List UInt8) :
    (sendFrame len type flags sid payload).type = some type := rfl

/-- A frame within the limit, written from as many bytes as it announces, keeps the limits. -/
theorem obeys_sendFrame {len : UInt32} (type flags : UInt8) (sid : UInt32) {payload : List UInt8}
    (hlen : len.toNat = payload.length) (hmax : payload.length ≤ maxFrameSize) :
    (sendFrame len type flags sid payload).Obeys := by
  have htake : (sendFrame len type flags sid payload).payload = payload :=
    List.take_of_length_le (Nat.le_of_eq hlen.symm)
  unfold maxFrameSize at hmax
  refine ⟨by rw [htake]; exact hmax, ?_⟩
  rw [lengthField_sendFrame, htake, hlen]
  omega

/-! ### The header block fits its buffer -/

variable {block : List UInt8} {req : Request}

theorem length_push {bs block' : List UInt8} (h : push block bs = some block') :
    block'.length ≤ headerCapacity := by
  unfold push at h
  split at h
  · nomatch h
  · rename_i hfits
    cases h
    rw [List.length_append]
    exact Nat.le_of_not_lt hfits

theorem length_hpackLit {block' : List UInt8} {name val : Text}
    (h : hpackLit block name val = some block') : block'.length ≤ headerCapacity := by
  unfold hpackLit at h
  obtain ⟨_, _, h⟩ := Option.bind_eq_some_iff.mp h
  obtain ⟨_, _, h⟩ := Option.bind_eq_some_iff.mp h
  obtain ⟨_, _, h⟩ := Option.bind_eq_some_iff.mp h
  obtain ⟨_, _, h⟩ := Option.bind_eq_some_iff.mp h
  exact length_push h

theorem length_pushFields {fields : List (Text × Text)} :
    ∀ {block block' : List UInt8}, block.length ≤ headerCapacity →
      pushFields block fields = some block' → block'.length ≤ headerCapacity := by
  induction fields with
  | nil =>
      intro block block' hblock h
      cases h
      exact hblock
  | cons f fields ih =>
      intro block block' hblock h
      rw [pushFields, List.foldlM_cons] at h
      obtain ⟨next, hnext, h⟩ := Option.bind_eq_some_iff.mp h
      exact ih (length_hpackLit hnext) h

/-- A header block that builds fits the buffer. -/
theorem length_headerBlock (h : headerBlock req = .ok block) :
    block.length ≤ headerCapacity := by
  unfold headerBlock at h
  split at h
  · nomatch h
  · rename_i fixed hfixed
    split at h
    · nomatch h
    · rename_i all hall
      cases h
      exact length_pushFields (length_pushFields (Nat.zero_le _) hfixed) hall

/-! ### The acknowledgements -/

theorem obeys_settingsAck (flags : UInt8) : (sendFrame 0 h2Settings flags 0 []).Obeys :=
  obeys_sendFrame h2Settings flags 0 rfl (Nat.zero_le _)

/-- What an acknowledgement is like: it keeps the limits and carries no data. -/
def Frame.IsAck (f : Frame) : Prop := f.Obeys ∧ f.type ≠ some h2Data

/-- Everything that was written back is an acknowledgement. -/
def Response.Acks (r : Response) : Prop := ∀ f ∈ r.frames, f.IsAck

theorem Response.Acks.stop (done errSeen : Bool) : Response.Acks ⟨[], done, errSeen⟩ :=
  fun _ hf => absurd hf List.not_mem_nil

theorem Response.Acks.after {f : Frame} {r : Response} (hr : r.Acks) (hf : f.IsAck) :
    (r.after f).Acks := by
  intro f' hf'
  rcases List.mem_cons.mp hf' with rfl | hf'
  · exact hf
  · exact hr f' hf'

theorem Response.Acks.ite {c : Prop} [Decidable c] {a b : Response} (ha : c → a.Acks)
    (hb : ¬ c → b.Acks) : (if c then a else b).Acks := by
  split
  · exact ha ‹_›
  · exact hb ‹_›

theorem isAck_settings : (sendFrame 0 h2Settings flagAck 0 []).IsAck :=
  ⟨obeys_settingsAck flagAck, by rw [type_sendFrame]; decide⟩

/-- A ping of eight bytes is sent back. -/
theorem isAck_ping {payload : List UInt8} (hlen : payload.length = 8) :
    (sendFrame 8 h2Ping flagAck 0 payload).IsAck := by
  refine ⟨obeys_sendFrame _ _ _ ?_ ?_, ?_⟩
  · rw [hlen]
    rfl
  · rw [hlen]
    decide
  · rw [type_sendFrame]
    decide

/-- Whatever the peer sends, what is written back keeps the limits and is not data. -/
theorem isAck_readFrames (guard : Nat) : ∀ input, (readFrames guard input).Acks := by
  induction guard with
  | zero => exact fun _ => .stop false false
  | succ guard ih =>
      -- the steps are the branches of the loop, in their order
      intro input
      unfold readFrames
      dsimp only
      refine .ite (fun _ => .stop _ _) fun _ => ?_
      refine .ite (fun _ => ih _) fun _ => ?_
      refine .ite (fun _ => .stop _ _) fun hcut => ?_
      refine .ite (fun _ => .ite (fun _ => .after (ih _) isAck_settings) fun _ => ih _) fun _ => ?_
      refine .ite (fun _ => .ite (fun hnew => .after (ih _) (isAck_ping ?_)) fun _ => ih _)
        fun _ => ?_
      · rw [List.length_take, hnew.2]
        omega
      refine .ite (fun _ => .stop _ _) fun _ => ?_
      refine .ite (fun _ => .ite (fun _ => .stop _ _) fun _ => ih _) fun _ => ?_
      exact .ite (fun _ => .ite (fun _ => .stop _ _) fun _ => ih _) fun _ => ih _

/-! ### The message -/

theorem length_message (req : Request) : (message req).length = req.sent.length + 5 := by
  simp [message, putBe32, putBe24]

/-- The DATA frame of an export. -/
def dataFrame (req : Request) : Frame :=
  sendFrame (UInt32.ofNat (message req).length) h2Data flagEndStream 1 (message req)

/-- What an export whose headers build writes. -/
theorem frames_export (hbuild : headerBlock req = .ok block) (incoming : List UInt8) :
    (otlpGrpcExport req incoming).frames =
      sendFrame 0 h2Settings 0 0 [] ::
      sendFrame (UInt32.ofNat block.length) h2Headers flagEndHeaders 1 block ::
      dataFrame req :: (readFrames 256 incoming).frames := by
  rw [otlpGrpcExport, hbuild]
  rfl

/-- Only the one frame carries data. -/
theorem dataPayload_export (hbuild : headerBlock req = .ok block) (incoming : List UInt8) :
    dataPayload (otlpGrpcExport req incoming).frames = (dataFrame req).payload := by
  have hacks : ((readFrames 256 incoming).frames.filter fun f => f.type == some h2Data) = [] :=
    List.filter_eq_nil_iff.mpr fun f hf =>
      (by simpa using (isAck_readFrames 256 incoming f hf).2)
  rw [frames_export hbuild, dataPayload, List.filter_cons_of_neg (by rw [type_sendFrame]; decide),
    List.filter_cons_of_neg (by rw [type_sendFrame]; decide),
    List.filter_cons_of_pos (by rw [dataFrame, type_sendFrame]; decide), hacks, List.flatMap_cons,
    List.flatMap_nil, List.append_nil]

theorem obeys_headers (hbuild : headerBlock req = .ok block) :
    (sendFrame (UInt32.ofNat block.length) h2Headers flagEndHeaders 1 block).Obeys := by
  have hlen := length_headerBlock hbuild
  unfold headerCapacity at hlen
  refine obeys_sendFrame _ _ _ ?_ ?_
  · rw [UInt32.toNat_ofNat']
    omega
  · unfold maxFrameSize
    omega

/-- Frames that keep the limits and carry the whole message carry a message of one frame. -/
theorem fits_of_conforms {incoming : List UInt8} (hbuild : headerBlock req = .ok block)
    (h : Conforms req (otlpGrpcExport req incoming).frames) :
    req.sent.length + 5 ≤ maxFrameSize := by
  obtain ⟨hobeys, field, hfield, -, hdata⟩ := h
  have hmem : dataFrame req ∈ (otlpGrpcExport req incoming).frames := by
    rw [frames_export hbuild]
    simp
  have hmax := (hobeys _ hmem).1
  rw [dataPayload_export hbuild] at hdata
  have hlen := congrArg List.length hdata
  rw [List.length_append, List.length_cons, hfield] at hlen
  omega

/-- **The frames keep the protocol's limits exactly for messages of one frame.** For every request
whose headers build and whatever the peer sends back: every frame keeps the default limits and the
DATA frames carry the whole message if and only if the message's bytes and their prefix fit one
frame. -/
theorem export_conforms_iff (req : Request) (incoming block : List UInt8)
    (hbuild : headerBlock req = .ok block) :
    Conforms req (otlpGrpcExport req incoming).frames ↔
      req.sent.length + 5 ≤ maxFrameSize := by
  refine ⟨fits_of_conforms hbuild, fun hfits => ?_⟩
  have hlen := length_message req
  have hmax : maxFrameSize < 2 ^ 32 := by decide
  have hword : (UInt32.ofNat (message req).length).toNat = (message req).length := by
    rw [UInt32.toNat_ofNat']
    omega
  refine ⟨fun f hf => ?_, putBe32 (UInt32.ofNat req.sent.length), rfl, ?_, ?_⟩
  · rw [frames_export hbuild] at hf
    simp only [List.mem_cons] at hf
    rcases hf with rfl | rfl | rfl | hf
    · exact obeys_settingsAck 0
    · exact obeys_headers hbuild
    · exact obeys_sendFrame _ _ _ hword (by omega)
    · exact (isAck_readFrames 256 incoming f hf).1
  · rw [getBe_putBe32, UInt32.toNat_ofNat']
    omega
  · rw [dataPayload_export hbuild]
    exact List.take_of_length_le (Nat.le_of_eq hword.symm)

/-- A request to the collector `c:4317` with one header of its own. -/
def request (body : List UInt8) : Request where
  host := text "c"
  port := text "4317"
  grpcPath := text "/E"
  body := body
  gzip := none
  headers := [(text "Api-Key", text "k")]

theorem headerBlock_request (body : List UInt8) : ∃ block, headerBlock (request body) = .ok block := by
  -- the body is no part of the header block
  have hbody : headerBlock (request body) = headerBlock (request []) := by
    have hfields : fixedFields (request body) = fixedFields (request []) := rfl
    have hheaders : (request body).headers = (request []).headers := rfl
    rw [headerBlock, headerBlock, hfields, hheaders]
  rw [hbody]
  cases h : headerBlock (request []) with
  | ok block => exact ⟨block, rfl⟩
  | error msg =>
      have hok : (headerBlock (request [])).isOk = true := by decide +kernel
      rw [h] at hok
      nomatch hok

theorem export_conforms_small :
    ∃ block, headerBlock (request [10, 0]) = .ok block ∧
      Conforms (request [10, 0]) (otlpGrpcExport (request [10, 0]) []).frames := by
  obtain ⟨block, hblock⟩ := headerBlock_request [10, 0]
  exact ⟨block, hblock, (export_conforms_iff _ [] block hblock).mpr (by decide)⟩

/-- A body of 16380 bytes goes out in one frame of 16385. -/
theorem not_conforms_large :
    (∃ block, headerBlock (request (List.replicate 16380 0)) = .ok block) ∧
      ¬ Conforms (request (List.replicate 16380 0))
        (otlpGrpcExport (request (List.replicate 16380 0)) []).frames := by
  obtain ⟨block, hblock⟩ := headerBlock_request (List.replicate 16380 0)
  refine ⟨⟨block, hblock⟩, fun h => ?_⟩
  have hfits := fits_of_conforms hblock h
  have hsent : (request (List.replicate 16380 0)).sent.length = 16380 := List.length_replicate
  rw [hsent] at hfits
  exact absurd hfits (by decide)

end SpinelEbpf.Otlp.Grpc

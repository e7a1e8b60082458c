import SpinelEbpf.Amp.Abi
import SpinelEbpf.Amp.Ring

/-!
# Amp — the real-time core's runtime

`amp_m7_runtime.c` owns the two execution slots, the ivar carveout and the command ring through
which the application core installs and removes probes while the core runs.  An install copies
the blob into the slot that is not active and then makes it active; a teardown deactivates and
clears the carveout.

The functions here are the calls, each run to its end, on coherent memory: a cache flush or
invalidation does nothing.  The byte memory `mem` holds the slots, the carveout and the helper
table; the two rings and the progress word are kept as the structures they are.
-/

namespace SpinelEbpf.Amp

/-- `AMP_CMD_RING_MAGIC`. -/
def ampCmdRingMagic : BitVec 32 := 0x444D4341#32

/-- `AMP_CMD_INSTALL`. -/
def ampCmdInstall : BitVec 32 := 1#32

/-- `AMP_CMD_TEARDOWN`. -/
def ampCmdTeardown : BitVec 32 := 2#32

/-- `struct amp_cmd_rec`; `blob` has `AMP_BLOB_MAX` bytes. -/
structure AmpCmdRec where
  type : BitVec 32
  abiVersion : BitVec 32
  length : BitVec 32
  ivarsSize : BitVec 32
  blob : Nat → UInt8

/-- `struct amp_cmd_ring`, with the records that follow it. -/
structure AmpCmdRing where
  magic : BitVec 32
  version : BitVec 32
  capacity : BitVec 32
  recSize : BitVec 32
  prod : BitVec 32
  cons : BitVec 32
  recs : Nat → AmpCmdRec

/-- `amp_cmd_ring_init`. -/
def ampCmdRingInit (r : AmpCmdRing) : AmpCmdRing :=
  { r with version := 1#32, capacity := 2#32, recSize := 528#32, prod := 0#32, cons := 0#32,
           magic := ampCmdRingMagic }

/-- The slot an index selects. -/
def AmpCmdRing.slotOf (r : AmpCmdRing) (index : BitVec 32) : Nat := index.toNat % r.capacity.toNat

/-- `amp_cmd_ring_push`: the returned value and the ring after. -/
def ampCmdRingPush (r : AmpCmdRing) (rec : AmpCmdRec) : Int × AmpCmdRing :=
  if r.magic ≠ ampCmdRingMagic then (0, r)
  else if r.capacity ≤ r.prod - r.cons then (0, r)
  else (1, { r with recs := Function.update r.recs (r.slotOf r.prod) rec, prod := r.prod + 1#32 })

/-- The runtime's memory and variables; `active = none` is `g_active_slot == -1`. -/
structure Runtime where
  cmd : AmpCmdRing
  ring : AmpRing
  mem : Nat → UInt8
  active : Option (Fin 2)
  progress : Nat

/-! ### Memory -/

/-- `n` bytes at `base` become those of `src`: `memcpy`, and `memset` for a constant. -/
def blit (mem : Nat → UInt8) (base n : Nat) (src : Nat → UInt8) : Nat → UInt8 := fun a =>
  if base ≤ a ∧ a < base + n then src (a - base) else mem a

/-- A 32-bit store, little-endian. -/
def storeWord (mem : Nat → UInt8) (addr : Nat) (w : BitVec 32) : Nat → UInt8 :=
  blit mem addr 4 fun i => UInt8.ofBitVec ((w >>> (8 * i)).setWidth 8)

/-- `amp_m7_progress`. -/
def ampM7Progress (step : Nat) (m : Runtime) : Runtime := { m with progress := step }

/-! ### Installing -/

/-- How much of the carveout an install clears. -/
def zeroSize (b : Board) (ivarsSize : BitVec 32) : Nat :=
  let zsize := if ivarsSize ≠ 0#32 then ivarsSize.toNat else b.ivarsSize
  if zsize > b.ivarsSize then b.ivarsSize else zsize

/-- `install_to_slot`. -/
def installToSlot (b : Board) (slot : Fin 2) (blob : Nat → UInt8) (len ivarsSize : BitVec 32)
    (m : Runtime) : Runtime :=
  let m := ampM7Progress 45 m
  let m := ampM7Progress 50 m
  let m := { m with mem := blit m.mem b.ivarsBase (zeroSize b ivarsSize) fun _ => 0 }
  let m := ampM7Progress 55 m
  let m := { m with mem := blit m.mem (b.blobSlot slot) len.toNat blob }
  let m := ampM7Progress 60 m
  ampM7Progress 70 m

/-- `amp_write_slot`: the jump and its literal. -/
def ampWriteSlot (slotAddr : Nat) (target : BitVec 32) (mem : Nat → UInt8) : Nat → UInt8 :=
  storeWord (storeWord mem slotAddr 0xF000F8DF#32) (slotAddr + 4) (target ||| 1#32)

/-- `AMP_RT_HELPER_SLOT`. -/
def helperSlot (b : Board) (id : Nat) : Nat := b.helperBase + (id - 1) * 8

/-- `helper_table_install`, given the addresses of the two helpers. -/
def helperTableInstall (b : Board) (ampEmit ampKtime : BitVec 32) (m : Runtime) : Runtime :=
  let mem := ampWriteSlot (helperSlot b 1) ampEmit m.mem
  { m with mem := ampWriteSlot (helperSlot b 2) ampKtime mem }

/-- `AMP_STAGING_MAGIC`. -/
def ampStagingMagic : BitVec 32 := 0x42504D41#32

/-- `struct amp_blob_staging`, with the bytes that follow it. -/
structure AmpBlobStaging where
  magic : BitVec 32
  abiVersion : BitVec 32
  length : BitVec 32
  ivarsSize : BitVec 32
  blob : Nat → UInt8

/-- `enum amp_load_status`. -/
inductive AmpLoadStatus where
  | ok
  | noBlob
  | abiMismatch
  | tooBig
  deriving DecidableEq, Repr

/-- The gate on the blob staged for boot. -/
def loadStatus (b : Board) (st : AmpBlobStaging) : AmpLoadStatus :=
  if st.magic ≠ ampStagingMagic then .noBlob
  else if st.abiVersion ≠ b.abiVersion then .abiMismatch
  else if st.length = 0#32 ∨ st.length.toNat > ampBlobMax then .tooBig
  else .ok

/-- `amp_m7_runtime_init`: the status, the runtime and the staging area after. -/
def ampM7RuntimeInit (b : Board) (ampEmit ampKtime : BitVec 32) (st : AmpBlobStaging)
    (m : Runtime) : AmpLoadStatus × Runtime × AmpBlobStaging :=
  let m := { m with ring := ampRingInit m.ring 256#32, cmd := ampCmdRingInit m.cmd,
                    active := none }
  let m := helperTableInstall b ampEmit ampKtime m
  let status := loadStatus b st
  if status = .ok then
    let m := installToSlot b 0 st.blob st.length st.ivarsSize m
    (status, { m with active := some 0 }, { st with magic := 0#32 })
  else (status, m, st)

/-! ### Commands -/

/-- The gate on an INSTALL. -/
def accepts (b : Board) (rec : AmpCmdRec) : Bool :=
  rec.abiVersion = b.abiVersion ∧ 0#32 < rec.length ∧ rec.length.toNat ≤ ampBlobMax

/-- The slot an install goes to. -/
def inactive (active : Option (Fin 2)) : Fin 2 := if active = some 0 then 1 else 0

/-- `amp_m7_teardown`. -/
def ampM7Teardown (b : Board) (m : Runtime) : Runtime :=
  let m := { m with active := none }
  { m with mem := blit m.mem b.ivarsBase b.ivarsSize fun _ => 0 }

/-- One command of `amp_m7_poll_cmd`'s loop. -/
def runCmd (b : Board) (rec : AmpCmdRec) (m : Runtime) : Runtime :=
  let m := ampM7Progress 30 m
  if rec.type = ampCmdInstall then
    if accepts b rec then
      let target := inactive m.active
      let m := ampM7Progress 40 m
      let m := installToSlot b target rec.blob rec.length rec.ivarsSize m
      let m := { m with active := some target }
      ampM7Progress 80 m
    else m
  else if rec.type = ampCmdTeardown then ampM7Teardown b m
  else m

/-- The loop of `amp_m7_poll_cmd` over the `n` commands from index `cons` on. -/
def pollLoop (b : Board) : Nat → BitVec 32 → Runtime → Runtime
  | 0, _, m => m
  | n + 1, cons, m =>
      pollLoop b n (cons + 1#32) (runCmd b (m.cmd.recs (m.cmd.slotOf cons)) m)

/-- `amp_m7_poll_cmd`: the number of commands processed and the runtime after. -/
def ampM7PollCmd (b : Board) (m : Runtime) : Nat × Runtime :=
  let m := ampM7Progress 20 m
  if m.cmd.magic ≠ ampCmdRingMagic then (0, m)
  else
    let m := ampM7Progress 25 m
    let n := (m.cmd.prod - m.cmd.cons).toNat
    let prod := m.cmd.prod
    let m := pollLoop b n m.cmd.cons m
    (n, { m with cmd := { m.cmd with cons := prod } })

end SpinelEbpf.Amp

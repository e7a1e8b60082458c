import SpinelEbpf.Support.Bytes
import SpinelEbpf.Support.Fnv

/-!
# Amp — the capability table

The firmware publishes which attach points it has, and the installer on the other core reads that
out of shared memory.  `probeCapabilityPublish` clears the region, writes the header and the
entries, hashes the entries as they stand in the region and writes the magic last;
`probeCapabilityOpen` checks all of this.  What is published is opened again, and a table with one
changed byte is not (`publish_open`).

A region is its bytes and its size; the pointers are not null.
-/

namespace SpinelEbpf.Amp
open Function Bytes

/-! ### Layout -/

/-- `PROBE_CAP_MAGIC`. -/
def probeCapMagic : UInt32 := 0x50414341

/-- `PROBE_CTX_FORMAT_VERSION`. -/
def probeCtxFormatVersion : UInt16 := 1

/-- `struct probe_attach_capability`. -/
structure ProbeAttachCapability where
  attachId : UInt32
  execClass : UInt32
  maxCycleBudget : UInt32
  fieldBitmapWords : UInt32
  fieldBitmap : Vector UInt64 4
  deriving DecidableEq, Repr

/-- `struct probe_capability_header`. -/
structure ProbeCapabilityHeader where
  magic : UInt32
  formatVersion : UInt16
  firmwareAbiVersion : UInt16
  bootGeneration : UInt64
  firmwareBuildId : Vector UInt8 20
  tableHash : UInt64
  nAttach : UInt32
  entryBytes : UInt32
  deriving DecidableEq, Repr

/-- `sizeof(struct probe_capability_header)`. -/
def headerSize : Nat := 56

/-- `sizeof(struct probe_attach_capability)`. -/
def entrySize : Nat := 48

def load16 (m : Mem) (o : Nat) : UInt16 := UInt16.ofNat (ofLe (read m o 2))

def load32 (m : Mem) (o : Nat) : UInt32 := UInt32.ofNat (ofLe (read m o 4))

def load64 (m : Mem) (o : Nat) : UInt64 := UInt64.ofNat (ofLe (read m o 8))

/-- An entry in memory. -/
def ProbeAttachCapability.bytes (e : ProbeAttachCapability) : List UInt8 :=
  le 4 e.attachId.toNat ++ (le 4 e.execClass.toNat ++ (le 4 e.maxCycleBudget.toNat ++
    (le 4 e.fieldBitmapWords.toNat ++ e.fieldBitmap.toList.flatMap fun v => le 8 v.toNat)))

/-- The entry at `o`. -/
def loadEntry (m : Mem) (o : Nat) : ProbeAttachCapability where
  attachId := load32 m o
  execClass := load32 m (o + 4)
  maxCycleBudget := load32 m (o + 8)
  fieldBitmapWords := load32 m (o + 12)
  fieldBitmap := Vector.ofFn fun i : Fin 4 => load64 m (o + 16 + 8 * i)

/-- The header at the start of a region; there are four bytes of padding before the hash. -/
def loadHeader (m : Mem) : ProbeCapabilityHeader where
  magic := load32 m 0
  formatVersion := load16 m 4
  firmwareAbiVersion := load16 m 6
  bootGeneration := load64 m 8
  firmwareBuildId := Vector.ofFn fun i : Fin 20 => m (16 + i)
  tableHash := load64 m 40
  nAttach := load32 m 48
  entryBytes := load32 m 52

/-! ### Publishing and opening -/

/-- `probe_capability_hash` of `n` entries at `o`. -/
def probeCapabilityHash (m : Mem) (o : Nat) (n : UInt32) : UInt64 :=
  Fnv.hash (read m o (n.toNat * entrySize))

/-- `probe_capability_publish`: the bytes written, and the region. -/
def probeCapabilityPublish (dst : Mem) (dstBytes : Nat) (entries : List ProbeAttachCapability)
    (buildId : Option (Vector UInt8 20)) (bootGeneration : UInt64) : Nat × Mem :=
  let n := UInt32.ofNat entries.length
  let need := headerSize + n.toNat * entrySize
  if dstBytes < need then (0, dst)
  else
    let m := write dst 0 (List.replicate dstBytes 0)
    let m := write m 4 (le 2 probeCtxFormatVersion.toNat)
    let m := write m 6 (le 2 0)
    let m := write m 8 (le 8 bootGeneration.toNat)
    let m := write m 16 (buildId.elim [] Vector.toList)
    let m := write m 48 (le 4 n.toNat)
    let m := write m 52 (le 4 entrySize)
    let m := write m headerSize (entries.flatMap ProbeAttachCapability.bytes)
    let m := write m 40 (le 8 (probeCapabilityHash m headerSize n).toNat)
    (need, write m 0 (le 4 probeCapMagic.toNat))

/-- The failures of `enum probe_cap_status`. -/
inductive ProbeCapFailure where
  | notPublished | badFormat | truncated | badHash
  deriving DecidableEq, Repr

/-- `struct probe_capability_view`, with what its pointers point to. -/
structure ProbeCapabilityView where
  hdr : ProbeCapabilityHeader
  entries : List ProbeAttachCapability
  n : UInt32
  deriving DecidableEq, Repr

/-- `probe_capability_open`. -/
def probeCapabilityOpen (src : Mem) (srcBytes : Nat) :
    Except ProbeCapFailure ProbeCapabilityView :=
  if srcBytes < headerSize then .error .notPublished
  else
    let h := loadHeader src
    if h.magic ≠ probeCapMagic then .error .notPublished
    else if h.formatVersion ≠ probeCtxFormatVersion then .error .badFormat
    else if h.entryBytes ≠ UInt32.ofNat entrySize then .error .badFormat
    else if headerSize + h.nAttach.toNat * entrySize > srcBytes then .error .truncated
    else if probeCapabilityHash src headerSize h.nAttach ≠ h.tableHash then .error .badHash
    else
      .ok ⟨h, (List.range h.nAttach.toNat).map fun i => loadEntry src (headerSize + entrySize * i),
        h.nAttach⟩

/-! ### Loads of what stands there -/

section Loads

variable {m : Mem} {o : Nat}

theorem load16_of_holds {v : UInt16} (h : Holds m o (le 2 v.toNat)) : load16 m o = v := by
  rw [Holds, length_le] at h
  rw [load16, h, ofLe_le v.toNat_lt, UInt16.ofNat_toNat]

theorem load32_of_holds {v : UInt32} (h : Holds m o (le 4 v.toNat)) : load32 m o = v := by
  rw [Holds, length_le] at h
  rw [load32, h, ofLe_le v.toNat_lt, UInt32.ofNat_toNat]

theorem load64_of_holds {v : UInt64} (h : Holds m o (le 8 v.toNat)) : load64 m o = v := by
  rw [Holds, length_le] at h
  rw [load64, h, ofLe_le v.toNat_lt, UInt64.ofNat_toNat]

theorem length_bytes (e : ProbeAttachCapability) : e.bytes.length = entrySize := by
  simp [ProbeAttachCapability.bytes, List.length_flatMap, entrySize]

/-- **An entry is read as it was written.** -/
theorem loadEntry_of_holds {e : ProbeAttachCapability} (h : Holds m o e.bytes) :
    loadEntry m o = e := by
  rw [ProbeAttachCapability.bytes, holds_append, holds_append, holds_append, holds_append] at h
  obtain ⟨hattach, hclass, hbudget, hwords, hbitmap⟩ := h
  simp only [length_le, Nat.add_assoc, Nat.reduceAdd] at hclass hbudget hwords hbitmap
  have hfields : (Vector.ofFn fun i : Fin 4 => load64 m (o + 16 + 8 * i)) = e.fieldBitmap := by
    refine Vector.ext fun i hi => ?_
    have hget : e.fieldBitmap.toList[i]? = some e.fieldBitmap[i] := by
      rw [List.getElem?_eq_getElem (by rwa [Vector.length_toList]), Vector.getElem_toList]
    rw [Vector.getElem_ofFn]
    have hword := holds_flatMap (fun v => length_le 8 v.toNat) hbitmap hget
    exact load64_of_holds hword
  rw [loadEntry, load32_of_holds hattach, load32_of_holds hclass, load32_of_holds hbudget,
    load32_of_holds hwords, hfields]

end Loads

/-! ### The round trip -/

/-- What stands in a region that was published into. -/
structure Published (m : Mem) (entries : List ProbeAttachCapability) (buildId : Vector UInt8 20)
    (bootGeneration : UInt64) : Prop where
  magic : Holds m 0 (le 4 probeCapMagic.toNat)
  format : Holds m 4 (le 2 probeCtxFormatVersion.toNat)
  generation : Holds m 8 (le 8 bootGeneration.toNat)
  build : Holds m 16 buildId.toList
  hash : Holds m 40 (le 8 (Fnv.hash (entries.flatMap ProbeAttachCapability.bytes)).toNat)
  count : Holds m 48 (le 4 (UInt32.ofNat entries.length).toNat)
  size : Holds m 52 (le 4 (UInt32.ofNat entrySize).toNat)
  table : Holds m headerSize (entries.flatMap ProbeAttachCapability.bytes)

section RoundTrip

variable {m : Mem} {entries : List ProbeAttachCapability} {buildId : Vector UInt8 20}
  {bootGeneration : UInt64} {size : Nat}

theorem length_flatMap_bytes (entries : List ProbeAttachCapability) :
    (entries.flatMap ProbeAttachCapability.bytes).length = entries.length * entrySize := by
  induction entries with
  | nil => rfl
  | cons e es ih =>
      rw [List.flatMap_cons, List.length_append, length_bytes, ih, List.length_cons, Nat.succ_mul,
        Nat.add_comm]

/-- The region after `probe_capability_publish`. -/
theorem published (dst : Mem) (hn : entries.length < 2 ^ 32)
    (hsize : headerSize + entries.length * entrySize ≤ size) :
    Published (probeCapabilityPublish dst size entries (some buildId) bootGeneration).2 entries
      buildId bootGeneration := by
  have hcount : (UInt32.ofNat entries.length).toNat = entries.length :=
    UInt32.toNat_ofNat_of_lt' hn
  have hbuild : buildId.toList.length = 20 := Vector.length_toList
  unfold probeCapabilityPublish
  dsimp only [Option.elim_some]
  rw [if_neg (by rw [hcount]; omega)]
  dsimp only
  -- the entries are hashed as they stand in the region
  rw [probeCapabilityHash, read_write (by rw [length_flatMap_bytes, hcount])]
  constructor
  case magic => exact holds_write _ _ _
  case hash => exact (holds_write _ _ _).write_off (by simp)
  case table =>
      exact ((holds_write _ _ _).write_off (by simp [headerSize])).write_off (by simp [headerSize])
  case size =>
      refine (((holds_write _ _ _).write_off ?_).write_off ?_).write_off ?_ <;>
        simp [headerSize]
  case count =>
      refine ((((holds_write _ _ _).write_off ?_).write_off ?_).write_off ?_).write_off ?_ <;>
        simp [headerSize]
  case build =>
      refine (((((holds_write _ _ _).write_off ?_).write_off ?_).write_off ?_).write_off ?_).write_off
        ?_ <;> simp [headerSize]
  case generation =>
      refine ((((((holds_write _ _ _).write_off ?_).write_off ?_).write_off ?_).write_off
        ?_).write_off ?_).write_off ?_ <;> simp [headerSize]
  case format =>
      refine ((((((((holds_write _ _ _).write_off ?_).write_off ?_).write_off ?_).write_off
        ?_).write_off ?_).write_off ?_).write_off ?_).write_off ?_ <;> simp [headerSize]

/-- The header of a published region. -/
theorem Published.loadHeader_eq (h : Published m entries buildId bootGeneration) :
    (loadHeader m).magic = probeCapMagic ∧ (loadHeader m).formatVersion = probeCtxFormatVersion ∧
      (loadHeader m).entryBytes = UInt32.ofNat entrySize ∧
      (loadHeader m).nAttach = UInt32.ofNat entries.length ∧
      (loadHeader m).tableHash = Fnv.hash (entries.flatMap ProbeAttachCapability.bytes) ∧
      (loadHeader m).bootGeneration = bootGeneration ∧
      (loadHeader m).firmwareBuildId = buildId := by
  refine ⟨load32_of_holds h.magic, load16_of_holds h.format, load32_of_holds h.size,
    load32_of_holds h.count, load64_of_holds h.hash, load64_of_holds h.generation, ?_⟩
  refine Vector.ext fun i hi => ?_
  have hread : read m 16 20 = buildId.toList := by
    have hbuild := h.build
    rwa [Holds, Vector.length_toList] at hbuild
  have hget : (read m 16 20)[i]? = buildId.toList[i]? := by rw [hread]
  rw [List.getElem?_eq_getElem (by rwa [length_read]), getElem_read,
    List.getElem?_eq_getElem (by rwa [Vector.length_toList]), Vector.getElem_toList] at hget
  rw [loadHeader, Vector.getElem_ofFn]
  exact Option.some.inj hget

/-- Opening a published header comes down to the hash. -/
theorem probeCapabilityOpen_eq (hn : entries.length < 2 ^ 32)
    (hsize : headerSize + entries.length * entrySize ≤ size)
    (hmagic : (loadHeader m).magic = probeCapMagic)
    (hformat : (loadHeader m).formatVersion = probeCtxFormatVersion)
    (hentry : (loadHeader m).entryBytes = UInt32.ofNat entrySize)
    (hcount : (loadHeader m).nAttach = UInt32.ofNat entries.length) :
    probeCapabilityOpen m size =
      if Fnv.hash (read m headerSize (entries.length * entrySize)) ≠ (loadHeader m).tableHash then
        .error .badHash
      else .ok ⟨loadHeader m,
        (List.range entries.length).map fun i => loadEntry m (headerSize + entrySize * i),
        UInt32.ofNat entries.length⟩ := by
  have hnat : (UInt32.ofNat entries.length).toNat = entries.length :=
    UInt32.toNat_ofNat_of_lt' hn
  unfold probeCapabilityOpen
  dsimp only
  rw [if_neg (by omega), if_neg (not_not.mpr hmagic), if_neg (not_not.mpr hformat),
    if_neg (not_not.mpr hentry), hcount, hnat, if_neg (by omega), probeCapabilityHash, hnat]

/-- **The entries are read as they were written.** -/
theorem Published.entries_eq (h : Published m entries buildId bootGeneration) :
    ((List.range entries.length).map fun i => loadEntry m (headerSize + entrySize * i)) =
      entries := by
  refine List.ext_getElem (by simp) fun i _ hi => ?_
  rw [List.getElem_map, List.getElem_range]
  exact loadEntry_of_holds (holds_flatMap length_bytes h.table (List.getElem?_eq_getElem hi))

/-- A byte of the entries may change and the header stays. -/
theorem loadHeader_update (m : Mem) (k : Nat) (v : UInt8) :
    loadHeader (update m (headerSize + k) v) = loadHeader m := by
  have hbyte : ∀ a, a < headerSize → update m (headerSize + k) v a = m a := by
    intro a ha
    exact update_of_ne (by omega) _ _
  have hread : ∀ o n, o + n ≤ headerSize →
      read (update m (headerSize + k) v) o n = read m o n := by
    intro o n hle
    exact read_congr fun a _ ha => hbyte a (by omega)
  have hbuild : (Vector.ofFn fun i : Fin 20 => update m (headerSize + k) v (16 + i)) =
      Vector.ofFn fun i : Fin 20 => m (16 + i) := by
    congr 1
    funext i
    exact hbyte _ (by simp only [headerSize]; omega)
  simp only [loadHeader, load16, load32, load64, hbuild]
  rw [hread, hread, hread, hread, hread, hread, hread] <;> decide

/-- **Published tables open, and one changed byte is noticed.** -/
theorem publish_open (dst : Mem) (hn : entries.length < 2 ^ 32)
    (hsize : 56 + 48 * entries.length ≤ size) :
    let m := (probeCapabilityPublish dst size entries (some buildId) bootGeneration).2
    (∃ view, probeCapabilityOpen m size = .ok view ∧ view.entries = entries ∧
      view.n.toNat = entries.length ∧ view.hdr.firmwareBuildId = buildId ∧
      view.hdr.bootGeneration = bootGeneration) ∧
    ∀ k < 48 * entries.length, ∀ v, v ≠ m (56 + k) →
      probeCapabilityOpen (update m (56 + k) v) size = .error .badHash := by
  intro m
  have hsize : headerSize + entries.length * entrySize ≤ size := by
    rw [headerSize, entrySize]
    omega
  have hpub : Published m entries buildId bootGeneration := published dst hn hsize
  obtain ⟨hmagic, hformat, hentry, hcount, hhash, hgen, hbuild⟩ := hpub.loadHeader_eq
  have htable : read m headerSize (entries.length * entrySize) =
      entries.flatMap ProbeAttachCapability.bytes := by
    have := hpub.table
    rwa [Holds, length_flatMap_bytes] at this
  refine ⟨⟨⟨loadHeader m, entries, UInt32.ofNat entries.length⟩, ?_, rfl,
    UInt32.toNat_ofNat_of_lt' hn, hbuild, hgen⟩, fun k hk v hv => ?_⟩
  · rw [probeCapabilityOpen_eq hn hsize hmagic hformat hentry hcount, htable, hhash,
      if_neg (not_not.mpr rfl), hpub.entries_eq]
  · have hheader : loadHeader (update m (56 + k) v) = loadHeader m :=
      loadHeader_update m k v
    have hread : read (update m (56 + k) v) headerSize (entries.length * entrySize) =
        (read m headerSize (entries.length * entrySize)).set k v := read_update v
    have hlt : k < (read m headerSize (entries.length * entrySize)).length := by
      rw [length_read, entrySize]
      omega
    rw [probeCapabilityOpen_eq hn hsize (by rw [hheader, hmagic]) (by rw [hheader, hformat])
      (by rw [hheader, hentry]) (by rw [hheader, hcount]), hheader, hhash, hread, ← htable]
    exact if_pos (Fnv.hash_set_ne hlt (by rwa [getElem_read]))

end RoundTrip

/-- The entry of the thread switch. -/
def threadSwitchedIn : ProbeAttachCapability := ⟨1, 1, 500, 4, #v[0xe, 0, 0, 0]⟩

theorem publish_open_threadSwitchedIn :
    let m := (probeCapabilityPublish (fun _ => 0xff) 128 [threadSwitchedIn]
      (some (Vector.replicate 20 7)) 3).2
    (∃ view, probeCapabilityOpen m 128 = .ok view ∧ view.entries = [threadSwitchedIn] ∧
      view.n.toNat = 1 ∧ view.hdr.firmwareBuildId = Vector.replicate 20 7 ∧
      view.hdr.bootGeneration = 3) ∧
    ∀ k < 48 * 1, ∀ v, v ≠ m (56 + k) →
      probeCapabilityOpen (update m (56 + k) v) 128 = .error .badHash :=
  publish_open _ (by decide) (by decide)

end SpinelEbpf.Amp

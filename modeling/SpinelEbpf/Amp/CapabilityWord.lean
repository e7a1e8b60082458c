import SpinelEbpf.Amp.Capability

/-!
# Amp — opening a capability table in machine words

The table is opened on a core with 64-bit and on one with 32-bit addresses.  `Capability` has the
sizes as natural numbers, which is what 64 bits compute (`probeCapabilityOpenW_64`).  Here the sizes
are words, and every read is listed.

The number of entries comes out of the region and is multiplied by the size of an entry.  In 32 bits
the product may wrap: a header can announce `2 ^ 28` entries of 48 bytes, whose size is zero, in a
region of 56 bytes (`open_wraps`).  With one entry less it is the sum that wraps, and the hash reads
far beyond the region.  `open_inside_iff` says when all that is read and all entries of the view are
inside the region.
-/

namespace SpinelEbpf.Amp
open Bytes

/-- How `probe_capability_open` ends, with the number of entries of the view, and the reads it makes
of the region: where and how many bytes. -/
structure OpenRun where
  status : Except ProbeCapFailure UInt32
  reads : List (Nat × Nat)

/-- The reads of the magic, the format version, the size of an entry and the number of entries. -/
def headerReads : List (Nat × Nat) := [(0, 4), (4, 2), (52, 4), (48, 4)]

/-- `(size_t)n * sizeof(*entries)`. -/
def tableBytes (w : Nat) (n : UInt32) : BitVec w := BitVec.ofNat w n.toNat * BitVec.ofNat w entrySize

/-- `probe_capability_open` with a `size_t` of `w` bits. -/
def probeCapabilityOpenW (w : Nat) (src : Mem) (srcBytes : BitVec w) : OpenRun :=
  if srcBytes.toNat < headerSize then ⟨.error .notPublished, []⟩
  else
    let h := loadHeader src
    if h.magic ≠ probeCapMagic then ⟨.error .notPublished, headerReads.take 1⟩
    else if h.formatVersion ≠ probeCtxFormatVersion then ⟨.error .badFormat, headerReads.take 2⟩
    else if h.entryBytes ≠ UInt32.ofNat entrySize then ⟨.error .badFormat, headerReads.take 3⟩
    else
      let need := BitVec.ofNat w headerSize + tableBytes w h.nAttach
      if need > srcBytes then ⟨.error .truncated, headerReads⟩
      else
        -- the hash goes over as many bytes as the product says
        let len := (tableBytes w h.nAttach).toNat
        let reads := headerReads ++ [(headerSize, len), (40, 8)]
        if Fnv.hash (read src headerSize len) ≠ h.tableHash then ⟨.error .badHash, reads⟩
        else ⟨.ok h.nAttach, reads⟩

/-- The bytes of the entries are inside the region. -/
def EntriesInside (size : Nat) (n : UInt32) : Prop := headerSize + n.toNat * entrySize ≤ size

instance (size : Nat) (n : UInt32) : Decidable (EntriesInside size n) :=
  inferInstanceAs (Decidable (_ ≤ _))

/-- The entries of the view that is returned are inside the region, and so is all that is read. -/
def OpenRun.Inside (size : Nat) (run : OpenRun) : Prop :=
  (∀ n, run.status = .ok n → EntriesInside size n) ∧ ∀ r ∈ run.reads, r.1 + r.2 ≤ size

/-- The size of the announced table is a word. -/
def Fits (w : Nat) (src : Mem) : Prop :=
  headerSize + (loadHeader src).nAttach.toNat * entrySize < 2 ^ w

instance (w : Nat) (src : Mem) : Decidable (Fits w src) := inferInstanceAs (Decidable (_ < _))

section

variable {w : Nat} {src : Mem} {srcBytes : BitVec w}

/-- The header is read only in a region that holds it. -/
theorem headerReads_inside {size : Nat} (hsize : headerSize ≤ size) :
    ∀ r ∈ headerReads, r.1 + r.2 ≤ size := by
  intro r hr
  have hall : ∀ r ∈ headerReads, r.1 + r.2 ≤ headerSize := by decide
  exact Nat.le_trans (hall r hr) hsize

theorem inside_of_error {size : Nat} {f : ProbeCapFailure} {reads : List (Nat × Nat)}
    (h : ∀ r ∈ reads, r.1 + r.2 ≤ size) : (OpenRun.mk (.error f) reads).Inside size := by
  refine ⟨fun n hok => ?_, h⟩
  cases hok

/-- The header passes the checks that come before the size of the table. -/
structure HeaderOk (src : Mem) (size : Nat) : Prop where
  size : headerSize ≤ size
  magic : (loadHeader src).magic = probeCapMagic
  formatVersion : (loadHeader src).formatVersion = probeCtxFormatVersion
  entryBytes : (loadHeader src).entryBytes = UInt32.ofNat entrySize

/-- When everything is inside, of a header that is not refused: the computed size of the region does
not wrap, and a table whose own size wraps is refused, for its computed size or for its hash. -/
def Safe (w : Nat) (src : Mem) (size : Nat) : Prop :=
  HeaderOk src size →
    let bytes := (loadHeader src).nAttach.toNat * entrySize
    headerSize + bytes % 2 ^ w < 2 ^ w ∧
      (bytes < 2 ^ w ∨ size < headerSize + bytes % 2 ^ w ∨
        Fnv.hash (read src headerSize (bytes % 2 ^ w)) ≠ (loadHeader src).tableHash)

theorem inside_of_refused (h : ¬ HeaderOk src srcBytes.toNat) :
    (probeCapabilityOpenW w src srcBytes).Inside srcBytes.toNat := by
  unfold probeCapabilityOpenW
  by_cases hshort : srcBytes.toNat < headerSize
  · rw [if_pos hshort]
    exact inside_of_error fun r hr => absurd hr List.not_mem_nil
  have hheader : ∀ r ∈ headerReads, r.1 + r.2 ≤ srcBytes.toNat :=
    headerReads_inside (Nat.le_of_not_lt hshort)
  rw [if_neg hshort]
  dsimp only
  split
  · exact inside_of_error fun r hr => hheader r (List.mem_of_mem_take hr)
  split
  · exact inside_of_error fun r hr => hheader r (List.mem_of_mem_take hr)
  split
  · exact inside_of_error fun r hr => hheader r (List.mem_of_mem_take hr)
  rename_i hmagic hversion hentry
  exact absurd ⟨Nat.le_of_not_lt hshort, not_not.mp hmagic, not_not.mp hversion,
    not_not.mp hentry⟩ h

theorem toNat_tableBytes (n : UInt32) : (tableBytes w n).toNat = n.toNat * entrySize % 2 ^ w := by
  rw [tableBytes, BitVec.toNat_mul, BitVec.toNat_ofNat, BitVec.toNat_ofNat, ← Nat.mul_mod]

/-- What is left to check of a header that is not refused. -/
theorem openW_eq (h : HeaderOk src srcBytes.toNat) :
    let bytes := (loadHeader src).nAttach.toNat * entrySize % 2 ^ w
    probeCapabilityOpenW w src srcBytes =
      if srcBytes.toNat < (headerSize + bytes) % 2 ^ w then ⟨.error .truncated, headerReads⟩
      else if Fnv.hash (read src headerSize bytes) ≠ (loadHeader src).tableHash then
        ⟨.error .badHash, headerReads ++ [(headerSize, bytes), (40, 8)]⟩
      else ⟨.ok (loadHeader src).nAttach, headerReads ++ [(headerSize, bytes), (40, 8)]⟩ := by
  intro bytes
  have hheader : headerSize < 2 ^ w := Nat.lt_of_le_of_lt h.size srcBytes.isLt
  have hneed : BitVec.ofNat w headerSize + tableBytes w (loadHeader src).nAttach > srcBytes ↔
      srcBytes.toNat < (headerSize + bytes) % 2 ^ w := by
    rw [gt_iff_lt, BitVec.lt_def, BitVec.toNat_add, toNat_tableBytes, BitVec.toNat_ofNat,
      Nat.mod_eq_of_lt hheader]
  simp only [probeCapabilityOpenW, if_neg (Nat.not_lt.mpr h.size), if_neg (not_not.mpr h.magic),
    if_neg (not_not.mpr h.formatVersion), if_neg (not_not.mpr h.entryBytes), toNat_tableBytes]
  exact if_congr hneed rfl rfl

theorem reads_inside {size bytes : Nat} (hsize : headerSize ≤ size) :
    (∀ r ∈ headerReads ++ [(headerSize, bytes), (40, 8)], r.1 + r.2 ≤ size) ↔
      headerSize + bytes ≤ size := by
  rw [List.forall_mem_append, List.forall_mem_cons, List.forall_mem_singleton]
  refine ⟨fun h => h.2.1, fun h => ⟨headerReads_inside hsize, h, ?_⟩⟩
  exact Nat.le_trans (by decide) hsize

/-- **What is read and returned is inside the region** exactly under these conditions. -/
theorem inside_iff_safe :
    (probeCapabilityOpenW w src srcBytes).Inside srcBytes.toNat ↔ Safe w src srcBytes.toNat := by
  by_cases h : HeaderOk src srcBytes.toNat
  swap
  · exact iff_of_true (inside_of_refused h) fun hok => absurd hok h
  rw [Safe, forall_prop_of_true h, openW_eq h]
  have hlt := srcBytes.isLt
  have hsize := h.size
  generalize hn : (loadHeader src).nAttach = n
  generalize hb : n.toNat * entrySize = bytes
  dsimp only
  have hle : bytes % 2 ^ w ≤ bytes := Nat.mod_le _ _
  by_cases hwrap : headerSize + bytes % 2 ^ w < 2 ^ w
  · rw [Nat.mod_eq_of_lt hwrap]
    split
    case isTrue hshort =>
      exact iff_of_true (inside_of_error (headerReads_inside hsize)) ⟨hwrap, .inr (.inl hshort)⟩
    case isFalse hlong =>
      have hreads := (reads_inside hsize).mpr (Nat.le_of_not_lt hlong)
      split
      case isTrue hhash =>
        exact iff_of_true (inside_of_error hreads) ⟨hwrap, .inr (.inr hhash)⟩
      case isFalse hhash =>
        refine ⟨fun hinside => ⟨hwrap, .inl ?_⟩, fun hsafe => ⟨fun n' hok => ?_, hreads⟩⟩
        · have hentries := hinside.1 n rfl
          rw [EntriesInside, hb] at hentries
          omega
        · obtain rfl := Except.ok.inj hok
          have hbytes := hsafe.2.resolve_right (not_or.mpr ⟨hlong, hhash⟩)
          rw [EntriesInside, hb, ← Nat.mod_eq_of_lt hbytes]
          exact Nat.le_of_not_lt hlong
  · -- the sum wraps to less than a header, so the hash goes over the end of the address space
    have hpow : bytes % 2 ^ w < 2 ^ w := Nat.mod_lt _ (by omega)
    have hsum : (headerSize + bytes % 2 ^ w) % 2 ^ w = headerSize + bytes % 2 ^ w - 2 ^ w := by
      rw [Nat.mod_eq_sub_mod (by omega), Nat.mod_eq_of_lt (by omega)]
    rw [hsum, if_neg (by omega)]
    refine iff_of_false (fun hinside => ?_) fun hsafe => hwrap hsafe.1
    have hreads : headerSize + bytes % 2 ^ w ≤ srcBytes.toNat := by
      split at hinside <;> exact (reads_inside hsize).mp hinside.2
    omega

theorem safe_of_fits {size : Nat} (hfits : Fits w src) : Safe w src size := by
  intro _
  unfold Fits at hfits
  dsimp only
  rw [Nat.mod_eq_of_lt (by omega)]
  exact ⟨hfits, .inl (by omega)⟩

end

theorem fits_64 (src : Mem) : Fits 64 src := by
  have := (loadHeader src).nAttach.toNat_lt
  unfold Fits headerSize entrySize
  omega

/-- What 64 bits compute is what the natural numbers have. -/
theorem probeCapabilityOpenW_64 (src : Mem) (srcBytes : BitVec 64) :
    (probeCapabilityOpenW 64 src srcBytes).status =
      (probeCapabilityOpen src srcBytes.toNat).map ProbeCapabilityView.n := by
  have hfits := fits_64 src
  unfold Fits at hfits
  by_cases h : HeaderOk src srcBytes.toNat
  · have hbytes : (loadHeader src).nAttach.toNat * entrySize < 2 ^ 64 := by omega
    rw [openW_eq h, Nat.mod_eq_of_lt hbytes, Nat.mod_eq_of_lt hfits]
    simp only [probeCapabilityOpen, if_neg (Nat.not_lt.mpr h.size), if_neg (not_not.mpr h.magic),
      if_neg (not_not.mpr h.formatVersion), if_neg (not_not.mpr h.entryBytes), gt_iff_lt]
    rw [← probeCapabilityHash, apply_ite OpenRun.status, apply_ite OpenRun.status,
      apply_ite (Except.map _), apply_ite (Except.map _)]
    rfl
  · unfold probeCapabilityOpenW probeCapabilityOpen
    dsimp only
    split
    · rfl
    split
    · rfl
    split
    · rfl
    split
    · rfl
    rename_i hsize hmagic hversion hentry
    exact absurd ⟨Nat.le_of_not_lt hsize, not_not.mp hmagic, not_not.mp hversion,
      not_not.mp hentry⟩ h

/-- **The bounds of an opened table**, with words of any size: all that is read and all entries of
the view are inside the region exactly if `Safe`.  It is so if the size of the announced table is a
word, and with 64 bits that always is. -/
theorem open_inside_iff (w : Nat) (src : Mem) (srcBytes : BitVec w) :
    ((probeCapabilityOpenW w src srcBytes).Inside srcBytes.toNat ↔ Safe w src srcBytes.toNat) ∧
    (Fits w src → Safe w src srcBytes.toNat) ∧ (w = 64 → Fits w src) := by
  refine ⟨inside_iff_safe, safe_of_fits, ?_⟩
  rintro rfl
  exact fits_64 src

/-- A header that announces `n * 2 ^ 24` entries, with the hash of no bytes. -/
def announcing (n : UInt8) : List UInt8 :=
  [0x41, 0x43, 0x41, 0x50, 1, 0, 0, 0] ++ List.replicate 32 0 ++
    [0x83, 0x03, 0x9d, 0x73, 0xb0, 0x0f, 0x65, 0x14] ++ [0, 0, 0, n] ++ [48, 0, 0, 0]

/-- A region with these bytes. -/
def regionOf (bytes : List UInt8) : Mem := fun a => bytes.getD a 0

theorem open_wraps :
    (probeCapabilityOpenW 32 (regionOf (announcing 16)) 56).status = .ok 0x10000000 ∧
      ¬ (probeCapabilityOpenW 32 (regionOf (announcing 16)) 56).Inside 56 := by
  have hok : (probeCapabilityOpenW 32 (regionOf (announcing 16)) 56).status = .ok 0x10000000 := by
    decide +kernel
  refine ⟨hok, fun hinside => ?_⟩
  have hentries : EntriesInside 56 0x10000000 := hinside.1 _ hok
  revert hentries
  decide

/-- A region with a table of one entry. -/
def publishedOne : Mem :=
  (probeCapabilityPublish (fun _ => 0) 104 [⟨7, 1, 1000, 4, Vector.replicate 4 5⟩] none 3).2

theorem open_inside_one :
    (probeCapabilityOpenW 32 publishedOne 104).status = .ok 1 ∧
      (probeCapabilityOpenW 32 publishedOne 104).Inside 104 := by
  refine ⟨by decide +kernel, (open_inside_iff 32 publishedOne 104).1.mpr ?_⟩
  exact (open_inside_iff 32 publishedOne 104).2.1 (by decide +kernel)

end SpinelEbpf.Amp

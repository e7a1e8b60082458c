import SpinelEbpf.Record.Gate

/-!
# Record — The generated decoder

`emit_channel` prints, for a channel, the function that decodes a record into its mirror struct.
`Unpack` is that function as data, `emitUnpack` the generator and `Unpack.run` what the printed C
does: refuse a short record, clear the mirror when some field may be missing, copy each field
(one past the required part only if the record reaches its end), and end every `char[]` with NUL.

A release that passes the gate still decodes the records of the one before
(`gate_decodes_iff`), unless it puts a new field where the old record had trailing padding: the
old producer's padding is then read as the field (`padding_read_as_field`).
-/

namespace SpinelEbpf.Record

open Function

/-- The copy of one field. -/
structure FieldRead where
  name : String
  off : Nat
  bytes : Nat
  /-- `if (size >= end)`. -/
  guard : Option Nat
  /-- The field's last byte is set to NUL. -/
  terminate : Bool
  deriving DecidableEq, Repr

/-- The generated function. -/
structure Unpack where
  min : Nat
  clear : Bool
  reads : List FieldRead
  deriving DecidableEq, Repr

/-- The copy `emit_channel` prints for a placed field. -/
def fieldRead (req : Nat) (p : Placed) : FieldRead :=
  ⟨p.1.name, p.2, p.1.bytes, if fieldEnd p > req then some (fieldEnd p) else none, p.1.isCString⟩

/-- `emit_channel`: the unpack function. -/
def emitUnpack (s : CcRecSchema) : Except String Unpack :=
  match layout s with
  | .error e => .error e
  | .ok (placed, total) =>
      match requiredBytes s placed total with
      | .error e => .error e
      | .ok req => .ok ⟨req, decide (req < total), placed.map (fieldRead req)⟩

/-- The mirror struct: the bytes of each member. -/
abbrev Mirror := String → Nat → UInt8

/-- The bytes of a record; a decoder looks at those below its size. -/
abbrev Bytes := Nat → UInt8

/-- `memcpy` into a member, if the record is long enough. -/
def FieldRead.copy (r : FieldRead) (p : Bytes) (size : Nat) (out : Mirror) : Mirror :=
  if r.guard.all (· ≤ size) then
    update out r.name fun i => if i < r.bytes then p (r.off + i) else out r.name i
  else out

/-- The NUL at the end of a C string. -/
def FieldRead.finish (r : FieldRead) (out : Mirror) : Mirror :=
  if r.terminate then update out r.name (update (out r.name) (r.bytes - 1) 0)
  else out

/-- The lines printed for one field. -/
def FieldRead.run (r : FieldRead) (p : Bytes) (size : Nat) (out : Mirror) : Mirror :=
  r.finish (r.copy p size out)

/-- The generated function on a record `p` of `size` bytes and a mirror with any content: `none`
when it returns -1, else the mirror after it. -/
def Unpack.run (u : Unpack) (p : Bytes) (size : Nat) (out : Mirror) : Option Mirror :=
  if size < u.min then none
  else some (u.reads.foldl (fun m r => r.run p size m) (if u.clear then fun _ _ => 0 else out))

/-! ### Running the copies -/

section

variable {r : FieldRead} {p : Bytes} {size : Nat} {out : Mirror} {name : String}

theorem FieldRead.run_of_ne (h : name ≠ r.name) : r.run p size out name = out name := by
  unfold FieldRead.run FieldRead.finish FieldRead.copy
  split <;> split <;> simp [update_of_ne h]

/-- A byte of the member copied. -/
theorem FieldRead.run_byte (hguard : ∀ g, r.guard = some g → g ≤ size) {i : Nat}
    (hi : i < r.bytes) :
    r.run p size out r.name i =
      if r.terminate = true ∧ i + 1 = r.bytes then 0 else p (r.off + i) := by
  have hcopy : r.copy p size out r.name i = p (r.off + i) := by
    rw [FieldRead.copy, if_pos (by simpa [Option.all_eq_true] using hguard), update_self,
      if_pos hi]
  unfold FieldRead.run FieldRead.finish
  cases ht : r.terminate with
  | false => simpa using hcopy
  | true =>
      rw [if_pos rfl, update_self]
      by_cases hlast : i + 1 = r.bytes
      · rw [if_pos ⟨rfl, hlast⟩, show i = r.bytes - 1 by omega, update_self]
      · rw [if_neg (fun h => hlast h.2), update_of_ne (by omega), hcopy]

/-- A member that is not copied, and was zero, is zero. -/
theorem FieldRead.run_zero {g : Nat} (hguard : r.guard = some g) (hg : size < g)
    (hzero : out r.name = fun _ => 0) : r.run p size out r.name = fun _ => 0 := by
  have hcopy : r.copy p size out = out := if_neg (by simpa [hguard] using hg)
  unfold FieldRead.run FieldRead.finish
  rw [hcopy]
  cases r.terminate with
  | false => simpa using hzero
  | true =>
      rw [if_pos rfl, update_self, hzero]
      exact update_eq_self_iff.mpr rfl

/-- Copies of other members do not matter. -/
theorem foldl_run_of_notMem (reads : List FieldRead) (h : name ∉ reads.map FieldRead.name) :
    reads.foldl (fun m r => r.run p size m) out name = out name := by
  induction reads generalizing out with
  | nil => rfl
  | cons r reads ih =>
      obtain ⟨hne, hmem⟩ := not_or.mp (fun hh => h (List.mem_cons.mpr hh))
      rw [List.foldl_cons, ih hmem, FieldRead.run_of_ne hne]

/-- A member's copy is all that touches it. -/
theorem foldl_run_eq (reads : List FieldRead) (hnodup : (reads.map FieldRead.name).Nodup)
    (hr : r ∈ reads) :
    ∃ m : Mirror, m r.name = out r.name ∧
      reads.foldl (fun m r => r.run p size m) out r.name = r.run p size m r.name := by
  induction reads generalizing out with
  | nil => nomatch hr
  | cons r' reads ih =>
      obtain ⟨hnot, hrest⟩ := List.nodup_cons.mp hnodup
      rw [List.foldl_cons]
      rcases List.mem_cons.mp hr with rfl | hmem
      · exact ⟨out, rfl, foldl_run_of_notMem reads hnot⟩
      · have hne : r.name ≠ r'.name := fun heq =>
          hnot (heq ▸ List.mem_map_of_mem hmem)
        obtain ⟨m, hm, heq⟩ := @ih (r'.run p size out) hrest hmem
        exact ⟨m, hm.trans (FieldRead.run_of_ne hne), heq⟩

end

/-! ### An older producer's records -/

/-- A schema the generator accepts, with what it computes. -/
structure Built (s : CcRecSchema) where
  placed : List Placed
  total : Nat
  req : Nat
  laid : layout s = .ok (placed, total)
  required : requiredBytes s placed total = .ok req

namespace Built

variable {s : CcRecSchema} (b : Built s)

/-- The generated decoder. -/
def unpack : Unpack := ⟨b.req, decide (b.req < b.total), b.placed.map (fieldRead b.req)⟩

/-- The published channel. -/
def channel (terms : Terms) : Channel :=
  { recordStruct := "<unit>_" ++ s.structSuffix, ringbufMap := "<unit>_" ++ s.mapSuffix,
    recordMinBytes := b.req, producers := s.producers, fields := b.placed.map snapField,
    egress := terms.egress, consumer := terms.consumer, metrics := terms.metrics }

theorem emitUnpack_eq : emitUnpack s = .ok b.unpack := by
  simp only [emitUnpack, b.laid, b.required, unpack]

theorem projectChannel_eq (terms : Terms) :
    projectChannel s terms = .ok (s.id, b.channel terms) := by
  simp only [projectChannel, b.laid, b.required, channel]

/-- The names of the record's fields. -/
def names : List String := b.placed.map fun q => q.1.name

theorem reads_names : b.unpack.reads.map FieldRead.name = b.names := by
  simp only [unpack, names, List.map_map]
  rfl

theorem req_le : b.req ≤ b.total := requiredBytes_le b.laid b.required

end Built

/-- What a field's byte should come out as. -/
def fieldByte (q : Placed) (p : Bytes) (i : Nat) : UInt8 :=
  if q.1.isCString = true ∧ i + 1 = q.1.bytes then 0 else p (q.2 + i)

section

variable {s t : CcRecSchema} (old : Built s) (new : Built t)

/-- A record of the old release comes out right: the old fields as they were written, the others
zero. -/
def Decodes (p : Bytes) (m : Mirror) : Prop :=
  (∀ q ∈ old.placed, ∀ i < q.1.bytes, m q.1.name i = fieldByte q p i) ∧
    ∀ q ∈ new.placed, q.1.name ∉ old.names → ∀ i < q.1.bytes, m q.1.name i = 0

/-- Every new field ends past the old record, or is a single forced NUL. -/
def PastOldRecord : Prop :=
  ∀ q ∈ new.placed, q.1.name ∉ old.names →
    old.total < fieldEnd q ∨ q.1.isCString = true ∧ q.1.bytes = 1

variable {old new}

/-- What the decoder makes of a field that the record reaches the end of. -/
theorem Built.run_byte {p : Bytes} {size : Nat} {out m : Mirror} (hnames : new.names.Nodup)
    (hrun : new.unpack.run p size out = some m) {q : Placed} (hq : q ∈ new.placed)
    (hend : fieldEnd q ≤ size) {i : Nat} (hi : i < q.1.bytes) :
    m q.1.name i = fieldByte q p i := by
  unfold Unpack.run at hrun
  by_cases hshort : size < new.unpack.min
  · rw [if_pos hshort] at hrun
    nomatch hrun
  rw [if_neg hshort] at hrun
  obtain rfl := Option.some.inj hrun
  have hr : fieldRead new.req q ∈ new.unpack.reads := List.mem_map_of_mem hq
  obtain ⟨m', -, hm⟩ := foldl_run_eq new.unpack.reads (new.reads_names ▸ hnames) hr
  have hguard : ∀ g, (fieldRead new.req q).guard = some g → g ≤ size := by
    intro g hg
    obtain ⟨-, hg⟩ := Option.ite_none_right_eq_some.mp hg
    exact (Option.some.inj hg) ▸ hend
  exact (congrFun hm i).trans (FieldRead.run_byte hguard hi)

/-- What it makes of a field past the end of the record. -/
theorem Built.run_zero {p : Bytes} {size : Nat} {out m : Mirror} (hnames : new.names.Nodup)
    (hrun : new.unpack.run p size out = some m) {q : Placed} (hq : q ∈ new.placed)
    (hend : size < fieldEnd q) (i : Nat) : m q.1.name i = 0 := by
  unfold Unpack.run at hrun
  by_cases hshort : size < new.unpack.min
  · rw [if_pos hshort] at hrun
    nomatch hrun
  rw [if_neg hshort] at hrun
  have hreq : new.req < fieldEnd q := Nat.lt_of_le_of_lt (not_lt.mp hshort) hend
  have hclear : new.unpack.clear = true :=
    decide_eq_true (Nat.lt_of_lt_of_le hreq (layout_inside new.laid hq).2)
  rw [if_pos hclear] at hrun
  obtain rfl := Option.some.inj hrun
  have hr : fieldRead new.req q ∈ new.unpack.reads := List.mem_map_of_mem hq
  obtain ⟨m', hm', hm⟩ := foldl_run_eq new.unpack.reads (new.reads_names ▸ hnames) hr
  have hguard : (fieldRead new.req q).guard = some (fieldEnd q) := if_pos hreq
  exact congrFun (hm.trans (FieldRead.run_zero hguard hend hm')) i

/-- **When the gate is sound for decoding.**  Between two releases that pass the gate, every
record of the old release is decoded right by the new decoder, whatever its padding, exactly when
no new field ends inside the old record (a single forced NUL apart). -/
theorem gate_decodes_iff {olds news : Snapshot} (hgate : violations olds news = [])
    {oterms nterms : Terms} (hid : t.id = s.id) (ho : olds.lookup s.id = some (old.channel oterms))
    (hn : (t.id, new.channel nterms) ∈ news) (hnames : new.names.Nodup) :
    (∀ (p : Bytes) (out : Mirror),
        ∃ m, new.unpack.run p old.total out = some m ∧ Decodes old new p m) ↔
      PastOldRecord old new := by
  have hc := compatible_of_gate hgate (hid ▸ ho) hn
  have hmin : new.req ≤ old.total := Nat.le_trans hc.minBytes old.req_le
  have hruns (p : Bytes) (out : Mirror) : ∃ m, new.unpack.run p old.total out = some m :=
    ⟨_, if_neg (not_lt.mpr hmin)⟩
  constructor
  · intro h q hq hnew
    by_contra hnot
    obtain ⟨hend, hnul⟩ := not_or.mp hnot
    -- a record of ones shows a one in the field
    obtain ⟨m, hm, -, hzero⟩ := h (fun _ => 1) fun _ _ => 0
    have hpos := (layout_inside new.laid hq).1
    have hone := Built.run_byte hnames hm hq (not_lt.mp hend) hpos
    rw [hzero q hq hnew 0 hpos, fieldByte, if_neg (fun h => hnul ⟨h.1, h.2.symm⟩)] at hone
    exact absurd hone (by decide)
  · intro hpast p out
    obtain ⟨m, hm⟩ := hruns p out
    refine ⟨m, hm, fun q hq i hi => ?_, fun q hq hnew i hi => ?_⟩
    · -- the new field of the old one's name stands in the same place
      obtain ⟨_, hn', hname, hoff, hbytes, hctype, hcount⟩ :=
        hc.fields (snapField q) (List.mem_map_of_mem hq)
      obtain ⟨q', hq', rfl⟩ := List.mem_map.mp hn'
      have hend : fieldEnd q' ≤ old.total := by
        have hq_end := (layout_inside old.laid hq).2
        rwa [fieldEnd, show q'.2 = q.2 from hoff, show q'.1.bytes = q.1.bytes from hbytes]
      have hbyte := Built.run_byte hnames hm hq' hend (hi.trans_eq (Eq.symm hbytes))
      have hcstr : q'.1.isCString = q.1.isCString := by
        rw [CcRecField.isCString, show q'.1.count = q.1.count from hcount,
          show q'.1.ctype = q.1.ctype from hctype]
        rfl
      rwa [fieldByte, hcstr, show q'.2 = q.2 from hoff, show q'.1.bytes = q.1.bytes from hbytes,
        show q'.1.name = q.1.name from hname] at hbyte
    · rcases hpast q hq hnew with hend | ⟨hcstr, hone⟩
      · exact Built.run_zero hnames hm hq hend i
      · by_cases hend : fieldEnd q ≤ old.total
        · rw [Built.run_byte hnames hm hq hend hi]
          exact if_pos ⟨hcstr, by omega⟩
        · exact Built.run_zero hnames hm hq (not_le.mp hend) i

end

/-- A record of a timestamp and a pid, with four bytes of padding after it. -/
def tick : CcRecSchema :=
  ⟨"tick", "tick_event", "tick_events",
    [⟨"ts", "__u64", 0, 8, 8, none⟩, ⟨"pid", "__u32", 0, 4, 4, some "int"⟩], some "pid", ["tick"]⟩

/-- `tick` with a field appended. -/
def tickAnd (f : CcRecField) : CcRecSchema := { tick with fields := tick.fields ++ [f] }

/-- Eight bytes, after the padding. -/
def cgid : CcRecField := ⟨"cgid", "__u64", 0, 8, 8, none⟩

/-- Four bytes, in the place of the padding. -/
def flags : CcRecField := ⟨"flags", "__u32", 0, 4, 4, none⟩

def builtTick : Built tick := ⟨_, _, _, rfl, rfl⟩
def builtTickCgid : Built (tickAnd cgid) := ⟨_, _, _, rfl, rfl⟩
def builtTickFlags : Built (tickAnd flags) := ⟨_, _, _, rfl, rfl⟩

/-- A channel without egress, consumer or metrics. -/
def noTerms : Terms := ⟨none, none, []⟩

/-- Appending `cgid` is safe. -/
theorem gate_decodes_tick :
    PastOldRecord builtTick builtTickCgid ∧
      ∀ (p : Bytes) (out : Mirror), ∃ m, builtTickCgid.unpack.run p builtTick.total out = some m ∧
        Decodes builtTick builtTickCgid p m := by
  have hpast : PastOldRecord builtTick builtTickCgid := by unfold PastOldRecord; decide
  exact ⟨hpast, (@gate_decodes_iff tick (tickAnd cgid) builtTick builtTickCgid
    [("tick", builtTick.channel noTerms)] [("tick", builtTickCgid.channel noTerms)]
    (by decide) noTerms noTerms rfl rfl (by decide) (by decide)).mpr hpast⟩

/-- **Padding is read as a field.**  Appending `flags` passes the gate, and a record of the old
release with a set byte in its padding decodes to a set flag. -/
theorem padding_read_as_field :
    violations [("tick", builtTick.channel noTerms)] [("tick", builtTickFlags.channel noTerms)] = []
      ∧ (builtTickFlags.unpack.run (fun i => if i < 12 then 0 else 0xff) builtTick.total
          (fun _ _ => 0)).map (fun m => m "flags" 0) = some 0xff := by
  decide

end SpinelEbpf.Record

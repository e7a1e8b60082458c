import SpinelEbpf.Otlp.Grpc
import SpinelEbpf.Support.CString
import SpinelEbpf.Support.Hpack

/-!
# Otlp — the header block in its buffer

`hpack_lit` appends one header field to a buffer at an offset that it moves.  Every store is guarded
by a comparison of the offset with the capacity, and a call that fails leaves what it already wrote.
Offsets are `size_t` and wrap; a buffer and a string are C objects, smaller than half the address
space, so no comparison is fooled.

`Wrote` says what a store may do: it touches nothing at or beyond the capacity, it succeeds exactly
when its bytes fit, and then they are the next bytes of the block.  It composes (`Wrote.andThen`),
so it holds of `hpackStrlen`, `hpackLit` and any sequence of calls.  A decoder reads the fields back
(`hpackLits_decode`), and the block of `Grpc` is this one at its capacity (`grpc_hpackLit`).
-/

namespace SpinelEbpf.Otlp.HeaderBlock
open Bytes Hpack Wire
open CString (Str)

/-! ### The writer -/

/-- A C string in memory. -/
structure CString extends Str UInt8 where
  object : bytes.length < 2 ^ 63

/-- The capacity of a buffer. -/
structure Capacity where
  val : Nat
  object : val < 2 ^ 63

/-- The buffer and `*off`. -/
structure Out where
  buf : Mem
  off : Nat

/-- `*off + n`. -/
def Out.plus (s : Out) (n : Nat) : Nat := (s.off + n) % 2 ^ 64

/-- `buf[(*off)++] = b`, if there is room. -/
def put (cap : Capacity) (b : UInt8) (s : Out) : Bool × Out :=
  if s.plus 1 > cap.val then (false, s) else (true, ⟨Function.update s.buf s.off b, s.plus 1⟩)

/-- What follows a call that returned 0. -/
def andThen (r : Bool × Out) (next : Out → Bool × Out) : Bool × Out :=
  if r.1 then next r.2 else r

/-- The groups of seven bits of a length from 127 on. -/
def groups (cap : Capacity) (v : Nat) (s : Out) : Bool × Out :=
  if v ≥ 128 then
    andThen (put cap (UInt8.ofNat ((v &&& 0x7F) ||| 0x80)) s) (groups cap (v >>> 7))
  else put cap (UInt8.ofNat v) s
termination_by v
decreasing_by
  rw [Nat.shiftRight_eq_div_pow]
  omega

/-- `hpack_strlen`. -/
def hpackStrlen (cap : Capacity) (len : Nat) (s : Out) : Bool × Out :=
  if len < 127 then put cap (UInt8.ofNat len) s
  else andThen (put cap 0x7F s) (groups cap (len - 127))

/-- The copy of a string, if there is room. -/
def copy (cap : Capacity) (str : CString) (s : Out) : Bool × Out :=
  if s.plus str.bytes.length > cap.val then (false, s)
  else (true, ⟨write s.buf s.off str.bytes, s.plus str.bytes.length⟩)

/-- `hpack_lit`. -/
def hpackLit (cap : Capacity) (name val : CString) (s : Out) : Bool × Out :=
  andThen (andThen (andThen (andThen (put cap 0x00 s)
    (hpackStrlen cap name.bytes.length)) (copy cap name))
    (hpackStrlen cap val.bytes.length)) (copy cap val)

/-- A sequence of calls, whatever each returns: the results, and the buffer after the last. -/
def hpackLits (cap : Capacity) : List (CString × CString) → Out → List Bool × Out
  | [], s      => ([], s)
  | f :: fs, s =>
      let r := hpackLit cap f.1 f.2 s
      let rs := hpackLits cap fs r.2
      (r.1 :: rs.1, rs.2)

/-! ### What a store may do -/

/-- The call `r` from `s` appended `bs`, or failed for lack of room. -/
structure Wrote (cap : Capacity) (s : Out) (bs : List UInt8) (r : Bool × Out) : Prop where
  beyond : ∀ a, cap.val ≤ a → r.2.buf a = s.buf a
  off_le : r.2.off ≤ cap.val
  fits : r.1 = true ↔ s.off + bs.length ≤ cap.val
  off : r.1 = true → r.2.off = s.off + bs.length
  block : r.1 = true → read r.2.buf 0 r.2.off = read s.buf 0 s.off ++ bs

section

variable {cap : Capacity} {s : Out}

/-- A sum of an offset and the size of an object does not wrap. -/
theorem Out.plus_eq (h : s.off ≤ cap.val) {n : Nat} (hn : n < 2 ^ 63) : s.plus n = s.off + n :=
  Nat.mod_eq_of_lt (by have := cap.object; omega)

/-- A store of `bs` at the offset, guarded by a comparison. -/
theorem wrote_of_guard (h : s.off ≤ cap.val) {bs : List UInt8} (hbs : bs.length < 2 ^ 63) :
    Wrote cap s bs (if s.plus bs.length > cap.val then (false, s)
      else (true, ⟨write s.buf s.off bs, s.plus bs.length⟩)) := by
  rw [Out.plus_eq h hbs]
  split
  · rename_i hfull
    refine ⟨fun _ _ => rfl, h, ?_, fun hr => (Bool.false_ne_true hr).elim,
      fun hr => (Bool.false_ne_true hr).elim⟩
    simp only [Bool.false_eq_true, false_iff]
    omega
  · rename_i hroom
    refine ⟨fun a ha => ?_, Nat.le_of_not_gt hroom, iff_of_true rfl (Nat.le_of_not_gt hroom),
      fun _ => rfl, fun _ => ?_⟩
    · change write s.buf s.off bs a = s.buf a
      rw [write, if_neg (by omega)]
    · change read (write s.buf s.off bs) 0 (s.off + bs.length) = _
      rw [read_add, read_write_off (.inl (by omega)), Nat.zero_add, read_write rfl]

theorem wrote_put (h : s.off ≤ cap.val) (b : UInt8) : Wrote cap s [b] (put cap b s) := by
  have hone : write s.buf s.off [b] = Function.update s.buf s.off b := by
    funext a
    by_cases ha : a = s.off
    · subst ha
      simp [write]
    · rw [write, if_neg (by simp only [List.length_singleton]; omega), Function.update_of_ne ha]
  have hput := wrote_of_guard h (show [b].length < 2 ^ 63 by simp)
  rwa [hone] at hput

theorem wrote_copy (h : s.off ≤ cap.val) (str : CString) :
    Wrote cap s str.bytes (copy cap str s) :=
  wrote_of_guard h str.object

/-- Two stores, the second after the first succeeded. -/
theorem Wrote.andThen {bs bs' : List UInt8} {r : Bool × Out} {next : Out → Bool × Out}
    (hr : Wrote cap s bs r) (hnext : ∀ s' : Out, s'.off ≤ cap.val → Wrote cap s' bs' (next s')) :
    Wrote cap s (bs ++ bs') (andThen r next) := by
  have hn := hnext r.2 hr.off_le
  rw [HeaderBlock.andThen]
  split
  · rename_i hok
    have hoff := hr.off hok
    refine ⟨fun a ha => (hn.beyond a ha).trans (hr.beyond a ha), hn.off_le, ?_, fun hok' => ?_,
      fun hok' => ?_⟩
    · rw [hn.fits, hoff, List.length_append, Nat.add_assoc]
    · rw [hn.off hok', hoff, List.length_append, Nat.add_assoc]
    · rw [hn.block hok', hr.block hok, List.append_assoc]
  · rename_i hfail
    refine ⟨hr.beyond, hr.off_le, iff_of_false hfail fun hroom => hfail (hr.fits.mpr ?_),
      fun hok => absurd hok hfail, fun hok => absurd hok hfail⟩
    rw [List.length_append] at hroom
    omega

/-- A group of seven bits, its top bit set. -/
theorem group_eq (v : Nat) : (v &&& 0x7F) ||| 0x80 = v % 128 + 128 := by
  have hlow : v &&& 0x7F = v % 2 ^ 7 := Nat.and_two_pow_sub_one_eq_mod v 7
  have hor := Nat.two_pow_add_eq_or_of_lt (Nat.mod_lt v (show 0 < 2 ^ 7 by decide)) 1
  rw [hlow, Nat.or_comm, show 0x80 = 2 ^ 7 * 1 from rfl, ← hor]
  omega

theorem wrote_groups (v : Nat) : ∀ s : Out, s.off ≤ cap.val →
    Wrote cap s (varint v) (groups cap v s) := by
  induction v using Nat.strong_induction_on with
  | _ v ih =>
      intro s h
      rw [groups, varint]
      by_cases hv : v < 128
      · rw [if_pos hv, if_neg (show ¬ v ≥ 128 by omega)]
        exact wrote_put h _
      · rw [if_neg hv, if_pos (show v ≥ 128 by omega), group_eq, Nat.shiftRight_eq_div_pow]
        exact (wrote_put h _).andThen (ih (v / 2 ^ 7) (by omega))

theorem wrote_hpackStrlen (h : s.off ≤ cap.val) (len : Nat) :
    Wrote cap s (lengthBytes len) (hpackStrlen cap len s) := by
  rw [hpackStrlen, lengthBytes]
  split
  · exact wrote_put h _
  · exact (wrote_put h _).andThen (wrote_groups _)

/-- **One call writes one literal field.** -/
theorem wrote_hpackLit (h : s.off ≤ cap.val) (name val : CString) :
    Wrote cap s (literal (name.bytes, val.bytes)) (hpackLit cap name val s) := by
  have hname := ((wrote_put h 0x00).andThen fun s' h' => wrote_hpackStrlen h' name.bytes.length).andThen
    fun s' h' => wrote_copy h' name
  have hval := (hname.andThen fun s' h' => wrote_hpackStrlen h' val.bytes.length).andThen
    fun s' h' => wrote_copy h' val
  simpa [literal, rawString, hpackLit] using hval

end

/-! ### Sequences of calls -/

section

variable {cap : Capacity}

/-- A field as a reader has it. -/
def field (f : CString × CString) : Field := (f.1.bytes, f.2.bytes)

/-- A sequence of calls stays below the capacity, whatever each returns. -/
theorem hpackLits_beyond (fields : List (CString × CString)) (s : Out) (h : s.off ≤ cap.val) :
    (hpackLits cap fields s).2.off ≤ cap.val ∧
      ∀ a, cap.val ≤ a → (hpackLits cap fields s).2.buf a = s.buf a := by
  induction fields generalizing s with
  | nil => exact ⟨h, fun _ _ => rfl⟩
  | cons f fields ih =>
      have hone := wrote_hpackLit h f.1 f.2
      obtain ⟨hoff, hbuf⟩ := ih (hpackLit cap f.1 f.2 s).2 hone.off_le
      exact ⟨hoff, fun a ha => (hbuf a ha).trans (hone.beyond a ha)⟩

/-- When all calls succeed, the block has their fields behind what it had. -/
theorem hpackLits_block (fields : List (CString × CString)) (s : Out) (h : s.off ≤ cap.val)
    (hok : ∀ rc ∈ (hpackLits cap fields s).1, rc = true) :
    read (hpackLits cap fields s).2.buf 0 (hpackLits cap fields s).2.off =
      read s.buf 0 s.off ++ (fields.map field).flatMap literal := by
  induction fields generalizing s with
  | nil => rw [List.map_nil, List.flatMap_nil, List.append_nil]; rfl
  | cons f fields ih =>
      have hone := wrote_hpackLit h f.1 f.2
      have hfirst : (hpackLit cap f.1 f.2 s).1 = true := hok _ List.mem_cons_self
      have hrest := ih (hpackLit cap f.1 f.2 s).2 hone.off_le fun rc hrc =>
        hok rc (List.mem_cons_of_mem _ hrc)
      rw [List.map_cons, List.flatMap_cons, ← List.append_assoc, field, ← hone.block hfirst]
      exact hrest

end

/-- **A decoder reads back the fields of a sequence of successful calls**, whatever its tables hold,
and no call writes at or beyond the capacity, whether it succeeds or not. -/
theorem hpackLits_decode (cap : Capacity) (buf : Mem) :
    (∀ fields : List (CString × CString), (∀ rc ∈ (hpackLits cap fields ⟨buf, 0⟩).1, rc = true) →
      ∀ (ctx : Context) (t : Table),
        ctx.decode t (read (hpackLits cap fields ⟨buf, 0⟩).2.buf 0
          (hpackLits cap fields ⟨buf, 0⟩).2.off) =
            some (fields.map fun f => (f.1.bytes, f.2.bytes), t)) ∧
    (∀ (fields : List (CString × CString)) (name val : CString) (a : Nat), cap.val ≤ a →
      (hpackLit cap name val (hpackLits cap fields ⟨buf, 0⟩).2).2.buf a = buf a) := by
  have hstart : (⟨buf, 0⟩ : Out).off ≤ cap.val := Nat.zero_le _
  refine ⟨fun fields hok ctx t => ?_, fun fields name val a ha => ?_⟩
  · rw [hpackLits_block fields ⟨buf, 0⟩ hstart hok]
    exact decode_literals ctx t (fields.map field)
  · obtain ⟨hoff, hbuf⟩ := hpackLits_beyond fields ⟨buf, 0⟩ hstart
    exact ((wrote_hpackLit hoff name val).beyond a ha).trans (hbuf a ha)

/-- `te: trailers`, and a field whose value has a length of two bytes. -/
def twoFields : List (CString × CString) :=
  [(⟨⟨[116, 101], by decide⟩, by decide⟩,
    ⟨⟨[116, 114, 97, 105, 108, 101, 114, 115], by decide⟩, by decide⟩),
   (⟨⟨[107], by decide⟩, by decide⟩,
    ⟨⟨List.replicate 130 97, by decide +kernel⟩, by decide +kernel⟩)]

theorem hpackLits_decode_two :
    Context.decode ⟨[], fun _ => none, 4096⟩ ⟨[], 4096⟩
      (read (hpackLits ⟨148, by decide⟩ twoFields ⟨fun _ => 0, 0⟩).2.buf 0
        (hpackLits ⟨148, by decide⟩ twoFields ⟨fun _ => 0, 0⟩).2.off) =
      some ([([116, 101], [116, 114, 97, 105, 108, 101, 114, 115]),
        ([107], List.replicate 130 97)], ⟨[], 4096⟩) :=
  (hpackLits_decode ⟨148, by decide⟩ fun _ => 0).1 twoFields (by decide +kernel) _ _

/-! ### The block of an export -/

theorem push_push (block bs bs' : List UInt8) :
    (Grpc.push block bs).bind (Grpc.push · bs') = Grpc.push block (bs ++ bs') := by
  simp only [Grpc.push, List.length_append]
  by_cases h : Grpc.headerCapacity < block.length + bs.length
  · rw [if_pos h, if_pos (by omega)]
    rfl
  · rw [if_neg h, Option.bind_some, List.length_append, List.append_assoc, Nat.add_assoc]

theorem foldlM_push (bs : List UInt8) (b : UInt8) (block : List UInt8) :
    (b :: bs).foldlM (fun block b => Grpc.push block [b]) block = Grpc.push block (b :: bs) := by
  induction bs generalizing b block with
  | nil => simp
  | cons c bs ih =>
      rw [List.foldlM_cons]
      simp only [ih]
      exact push_push block [b] (c :: bs)

theorem grpc_hpackStrlen (block : List UInt8) (len : Nat) :
    Grpc.hpackStrlen block len = Grpc.push block (lengthBytes len) := by
  rw [Grpc.hpackStrlen, lengthBytes]
  split
  · rfl
  · obtain ⟨b, bs, hvarint⟩ := List.exists_cons_of_ne_nil (varint_ne_nil (len - 127))
    simp only [hvarint, foldlM_push]
    exact push_push block [0x7F] (b :: bs)

/-- The block of an export grows by one literal field, if it fits. -/
theorem grpc_hpackLit_eq_push (block name val : List UInt8) :
    Grpc.hpackLit block name val = Grpc.push block (literal (name, val)) := by
  have hstep : ∀ block bs bs' : List UInt8,
      Grpc.push block (bs ++ bs') = (Grpc.push block bs).bind (Grpc.push · bs') :=
    fun block bs bs' => (push_push block bs bs').symm
  have hbytes : literal (name, val) =
      [0x00] ++ (lengthBytes name.length ++ (name ++ (lengthBytes val.length ++ val))) := by
    simp [literal, rawString]
  rw [hbytes]
  simp only [Grpc.hpackLit, grpc_hpackStrlen, hstep]
  rfl

/-- **The list model of the block is the buffer's**, at the capacity of an export. -/
theorem grpc_hpackLit {s : Out} (h : s.off ≤ Grpc.headerCapacity) (name val : CString) :
    Grpc.hpackLit (read s.buf 0 s.off) name.bytes val.bytes =
      let r := hpackLit ⟨Grpc.headerCapacity, by decide⟩ name val s
      if r.1 then some (read r.2.buf 0 r.2.off) else none := by
  have hone := @wrote_hpackLit ⟨Grpc.headerCapacity, by decide⟩ s h name val
  rw [grpc_hpackLit_eq_push, Grpc.push, length_read]
  by_cases hfits : s.off + (literal (name.bytes, val.bytes)).length ≤ Grpc.headerCapacity
  · have hok := hone.fits.mpr hfits
    simp only [if_neg (Nat.not_lt.mpr hfits), if_pos hok, hone.block hok]
  · have hfail := mt hone.fits.mp hfits
    simp only [if_pos (Nat.lt_of_not_le hfits), if_neg hfail]

end SpinelEbpf.Otlp.HeaderBlock

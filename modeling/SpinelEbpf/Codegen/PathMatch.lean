import SpinelEbpf.Support.CString

/-!
# Codegen — matching paths and kernel strings

`path_eq`, `path_starts_with` and `kfield_str_eq` compare a string of the kernel with a literal
of the program.  The generator unrolls the comparison: it reads the string into a `char` buffer,
tests the length the helper returned, and then tests the buffer byte by byte against the literal's
bytes written as numbers from 0 to 255.

`char` is signed on the BPF target, so a buffer byte of 128 or more is promoted to a negative
number and equals none of those constants.  `pathEq_eq_one`, `kfieldStrEq_eq_one` and
`pathStartsWith_eq_one` are what the generated code decides; `matching_exact_iff` says on which
literals and strings that is what it should.
-/

namespace SpinelEbpf.Codegen
open CString (Str)

abbrev CString := Str (BitVec 8)

/-- `strlen`. -/
def CString.len (s : CString) : Nat := s.bytes.length

/-! ### The generated code -/

/-- The test on the helper's return value. -/
inductive LenTest where
  | eq (n : Nat)
  | ge (n : Nat)
  deriving DecidableEq, Repr

/-- The generated lines: the buffer's size, the test on the length, and the tests
`buf[i] == c` in order. -/
structure MatchCode where
  size : Nat
  lenTest : LenTest
  byteTests : List (Nat × Int)
  deriving DecidableEq, Repr

/-- `CC_PATH_EQ_MAX`. -/
def ccPathEqMax : Nat := 256

/-- Rounding up to a multiple of eight, for the stack. -/
def roundUp8 (n : Nat) : Nat := (n + 7) / 8 * 8

/-- What the three emitters do alike: refuse an empty literal and one whose `capped` size is over
the limit, then unroll the comparison. -/
def emitMatch (empty tooLong : String) (capped size : Nat → Nat) (test : Nat → LenTest)
    (lit : CString) : Except String MatchCode :=
  if lit.len = 0 then .error empty
  else if ccPathEqMax < capped lit.len then .error tooLong
  else .ok {
    size := size lit.len
    lenTest := test lit.len
    byteTests := lit.bytes.zipIdx.map fun (b, i) => (i, (b.toNat : Int)) }

/-- `cc_emit_path_eq_g`. -/
def ccEmitPathEq : CString → Except String MatchCode :=
  emitMatch "path compare: empty path literal"
    "path compare: path literal too long for the BPF stack"
    (fun len => roundUp8 (len + 1)) (fun len => roundUp8 (len + 1)) (fun len => .eq (len + 1))

/-- `cc_emit_path_starts_with`. -/
def ccEmitPathStartsWith : CString → Except String MatchCode :=
  emitMatch "path prefix compare: empty path literal"
    "path prefix compare: path literal too long (the cap is CC_PATH_EQ_MAX)"
    (fun len => len) (fun _ => 4096) (fun len => .ge (len + 1))

/-- `kfield_str_eq`: the buffer of its caller and `cc_emit_kfield_str_eq`. -/
def ccEmitKfieldStrEq : CString → Except String MatchCode :=
  emitMatch "kfield_str_eq: empty literal"
    "kfield_str_eq: literal too long for the BPF stack (the wall was measured)"
    (fun len => roundUp8 (len + 2)) (fun len => roundUp8 (len + 2)) (fun len => .eq (len + 1))

/-! ### Running it -/

/-- A buffer that holds the string, its NUL, and after it what was there. -/
def holding (bytes : List (BitVec 8)) (old : Nat → BitVec 8) : Nat → BitVec 8 := fun i =>
  if i < bytes.length then bytes.getD i 0 else if i = bytes.length then 0 else old i

/-- `bpf_d_path`: the length with the NUL, or the negative number `-(error + 1)` and a buffer
nothing is known of.  A null guard pointer skips the call and gives `-1`. -/
def bpfDPath (error : Nat) (old : Nat → BitVec 8) (size : Nat) :
    Option CString → Int × (Nat → BitVec 8)
  | none => (-1, old)
  | some path =>
    if path.len + 1 ≤ size then (path.len + 1, holding path.bytes old)
    else (Int.negSucc error, old)

/-- `bpf_probe_read_kernel_str`: the copied length with the NUL, cut to the buffer. -/
def bpfProbeReadKernelStr (old : Nat → BitVec 8) (size : Nat) (s : CString) :
    Int × (Nat → BitVec 8) :=
  (min (s.len + 1) size, holding (s.bytes.take (size - 1)) old)

/-- The C value of the length test. -/
def LenTest.holds (rc : Int) : LenTest → Bool
  | .eq n => rc = n
  | .ge n => rc ≥ n

/-- The generated match: `m = (length test); m = m && (buf[i] == c); …`, the buffer's elements
promoted from signed `char`. -/
def MatchCode.value (m : MatchCode) (rc : Int) (buf : Nat → BitVec 8) : Int :=
  m.byteTests.foldl (fun pm t => if pm ≠ 0 ∧ (buf t.1).toInt = t.2 then 1 else 0)
    (if m.lenTest.holds rc then 1 else 0)

/-- The value of a match on a path. -/
def MatchCode.onPath (m : MatchCode) (error : Nat) (old : Nat → BitVec 8)
    (path : Option CString) : Int :=
  m.value (bpfDPath error old m.size path).1 (bpfDPath error old m.size path).2

/-- The value of a match on a kernel string. -/
def MatchCode.onString (m : MatchCode) (old : Nat → BitVec 8) (s : CString) : Int :=
  m.value (bpfProbeReadKernelStr old m.size s).1 (bpfProbeReadKernelStr old m.size s).2

/-! ### What the unrolled comparison decides -/

/-- Every byte of the literal is one a signed `char` holds as a non-negative number. -/
def Ascii (lit : CString) : Prop := ∀ b ∈ lit.bytes, b.toNat < 128

instance (lit : CString) : Decidable (Ascii lit) :=
  inferInstanceAs (Decidable (∀ b ∈ lit.bytes, b.toNat < 128))

/-- A promoted byte equals an unsigned constant only when both are below 128. -/
theorem toInt_eq_toNat_iff (b c : BitVec 8) :
    b.toInt = (c.toNat : Int) ↔ b = c ∧ c.toNat < 128 := by
  have hb := b.isLt
  have hc := c.isLt
  rw [BitVec.toInt_eq_toNat_cond, ← BitVec.toNat_inj]
  split <;> omega

theorem foldl_and_eq_one {α : Type} (p : α → Prop) [DecidablePred p] (l : List α) (m : Int)
    (hm : m = 0 ∨ m = 1) :
    l.foldl (fun pm t => if pm ≠ 0 ∧ p t then (1 : Int) else 0) m = 1 ↔ m = 1 ∧ ∀ t ∈ l, p t := by
  induction l generalizing m with
  | nil => simp
  | cons t l ih =>
      rw [List.foldl_cons, ih _ (by split <;> simp)]
      rcases hm with rfl | rfl <;> simp

theorem foldl_and_bit {α : Type} (p : α → Prop) [DecidablePred p] (l : List α) (m : Int)
    (hm : m = 0 ∨ m = 1) :
    l.foldl (fun pm t => if pm ≠ 0 ∧ p t then (1 : Int) else 0) m = 0 ∨
      l.foldl (fun pm t => if pm ≠ 0 ∧ p t then (1 : Int) else 0) m = 1 := by
  induction l generalizing m with
  | nil => exact hm
  | cons t l ih =>
      rw [List.foldl_cons]
      exact ih _ (by split <;> simp)

/-- The tests of a literal's bytes, in order. -/
theorem byteTests_iff (lit : CString) (buf : Nat → BitVec 8) :
    (∀ t ∈ lit.bytes.zipIdx.map fun (b, i) => (i, (b.toNat : Int)), (buf t.1).toInt = t.2) ↔
      Ascii lit ∧ ∀ i, i < lit.len → buf i = lit.bytes.getD i 0 := by
  simp only [List.mem_map, List.mem_zipIdx_iff_getElem?, Prod.exists, forall_exists_index, and_imp]
  constructor
  · intro h
    have hbyte (i : Nat) (hi : i < lit.bytes.length) :
        buf i = lit.bytes[i] ∧ lit.bytes[i].toNat < 128 :=
      (toInt_eq_toNat_iff ..).mp (h _ _ i (List.getElem?_eq_getElem hi) rfl)
    refine ⟨fun b hb => ?_, fun i hi => ?_⟩
    · obtain ⟨i, hi, rfl⟩ := List.getElem_of_mem hb
      exact (hbyte i hi).2
    · rw [(hbyte i hi).1, List.getD_eq_getElem _ _ hi]
  · rintro ⟨hascii, hbuf⟩ _ b i hget rfl
    obtain ⟨hi, rfl⟩ := List.getElem?_eq_some_iff.mp hget
    refine (toInt_eq_toNat_iff ..).mpr ⟨?_, hascii _ (List.getElem_mem hi)⟩
    rw [hbuf i hi, List.getD_eq_getElem _ _ hi]

/-- The match is `1` when the length test holds and the buffer starts with the literal, provided
the literal is ASCII, and never otherwise. -/
theorem MatchCode.value_eq_one {empty tooLong : String} {capped size : Nat → Nat}
    {test : Nat → LenTest} {lit : CString} {m : MatchCode}
    (hm : emitMatch empty tooLong capped size test lit = .ok m) (rc : Int) (buf : Nat → BitVec 8) :
    m.value rc buf = 1 ↔
      (test lit.len).holds rc = true ∧ Ascii lit ∧ ∀ i, i < lit.len → buf i = lit.bytes.getD i 0 := by
  unfold emitMatch at hm
  split at hm
  · cases hm
  split at hm
  · cases hm
  cases hm
  unfold value
  dsimp only
  rw [foldl_and_eq_one (fun t : Nat × Int => (buf t.1).toInt = t.2) _ _ (by split <;> simp)]
  have hstart : ((if (test lit.len).holds rc = true then 1 else 0 : Int) = 1) ↔
      (test lit.len).holds rc = true := by
    split <;> simp_all
  rw [hstart]
  exact and_congr_right fun _ => byteTests_iff lit buf

/-- The size and the length test of an accepted literal's code. -/
theorem emitMatch_size {empty tooLong : String} {capped size : Nat → Nat} {test : Nat → LenTest}
    {lit : CString} {m : MatchCode} (hm : emitMatch empty tooLong capped size test lit = .ok m) :
    m.size = size lit.len := by
  unfold emitMatch at hm
  split at hm
  · cases hm
  split at hm
  · cases hm
  cases hm
  rfl

theorem holding_of_lt {bytes : List (BitVec 8)} {old : Nat → BitVec 8} {i : Nat}
    (hi : i < bytes.length) : holding bytes old i = bytes.getD i 0 :=
  if_pos hi

theorem le_roundUp8 (n : Nat) : n ≤ roundUp8 n := by
  unfold roundUp8
  omega

theorem isPrefix_iff_getD (p s : List (BitVec 8)) :
    p <+: s ↔ p.length ≤ s.length ∧ ∀ i, i < p.length → s.getD i 0 = p.getD i 0 := by
  constructor
  · rintro ⟨t, rfl⟩
    refine ⟨by simp, fun i hi => ?_⟩
    rw [List.getD_append _ _ _ _ hi]
  · rintro ⟨hle, h⟩
    rw [List.prefix_iff_eq_take]
    refine List.ext_getElem (by simpa using hle) fun i hi _ => ?_
    have := h i hi
    rw [List.getD_eq_getElem _ _ hi, List.getD_eq_getElem _ _ (by omega)] at this
    rw [List.getElem_take, this]

theorem CString.eq_iff_getD (s t : CString) :
    s = t ↔ s.len = t.len ∧ ∀ i, i < t.len → s.bytes.getD i 0 = t.bytes.getD i 0 := by
  constructor
  · rintro rfl
    exact ⟨rfl, fun _ _ => rfl⟩
  · rintro ⟨hlen, h⟩
    have hp : t.bytes <+: s.bytes := (isPrefix_iff_getD ..).mpr ⟨Nat.le_of_eq hlen.symm, h⟩
    exact Str.ext (hp.eq_of_length hlen.symm).symm

/-! ### What each match decides -/

section Decides

variable {lit s : CString} {m : MatchCode} (error : Nat) (old : Nat → BitVec 8)

theorem pathEq_eq_one (hm : ccEmitPathEq lit = .ok m) :
    m.onPath error old (some s) = 1 ↔ s = lit ∧ Ascii lit := by
  have hsize : m.size = roundUp8 (lit.len + 1) := emitMatch_size hm
  have hle := le_roundUp8 (lit.len + 1)
  rw [MatchCode.onPath, MatchCode.value_eq_one hm, hsize, bpfDPath]
  split
  · simp only [LenTest.holds, decide_eq_true_eq]
    rw [CString.eq_iff_getD s lit]
    constructor
    · rintro ⟨hlen, hascii, hbytes⟩
      have hlen' : s.len = lit.len := by omega
      refine ⟨⟨hlen', fun i hi => ?_⟩, hascii⟩
      rw [← hbytes i hi, holding_of_lt (show i < s.len by omega)]
    · rintro ⟨⟨hlen, hbytes⟩, hascii⟩
      refine ⟨by omega, hascii, fun i hi => ?_⟩
      rw [holding_of_lt (show i < s.len by omega), hbytes i hi]
  · rename_i hlong
    refine ⟨fun h => ?_, fun h => ?_⟩
    · have := h.1
      simp only [LenTest.holds, decide_eq_true_eq] at this
      omega
    · rw [h.1] at hlong
      omega

theorem kfieldStrEq_eq_one (hm : ccEmitKfieldStrEq lit = .ok m) :
    m.onString old s = 1 ↔ s = lit ∧ Ascii lit := by
  have hsize : m.size = roundUp8 (lit.len + 2) := emitMatch_size hm
  have hle := le_roundUp8 (lit.len + 2)
  rw [MatchCode.onString, MatchCode.value_eq_one hm, hsize, bpfProbeReadKernelStr]
  simp only [LenTest.holds, decide_eq_true_eq]
  rw [CString.eq_iff_getD s lit]
  have htake (h : s.len = lit.len) :
      s.bytes.take (roundUp8 (lit.len + 2) - 1) = s.bytes :=
    List.take_of_length_le (show s.len ≤ _ by omega)
  constructor
  · rintro ⟨hlen, hascii, hbytes⟩
    have hlen' : s.len = lit.len := by omega
    refine ⟨⟨hlen', fun i hi => ?_⟩, hascii⟩
    rw [← hbytes i hi, htake hlen', holding_of_lt (show i < s.len by omega)]
  · rintro ⟨⟨hlen, hbytes⟩, hascii⟩
    refine ⟨by omega, hascii, fun i hi => ?_⟩
    rw [htake hlen, holding_of_lt (show i < s.len by omega), hbytes i hi]

theorem pathStartsWith_eq_one (hm : ccEmitPathStartsWith lit = .ok m) :
    m.onPath error old (some s) = 1 ↔ lit.bytes <+: s.bytes ∧ Ascii lit ∧ s.len < 4096 := by
  have hsize : m.size = 4096 := emitMatch_size hm
  rw [MatchCode.onPath, MatchCode.value_eq_one hm, hsize, bpfDPath, isPrefix_iff_getD]
  split
  · rename_i hfits
    simp only [LenTest.holds, decide_eq_true_eq]
    constructor
    · rintro ⟨hlen, hascii, hbytes⟩
      have hlen' : lit.len ≤ s.len := by omega
      refine ⟨⟨hlen', fun i hi => ?_⟩, hascii, hfits⟩
      rw [← hbytes i hi, holding_of_lt (Nat.lt_of_lt_of_le hi hlen')]
    · rintro ⟨⟨hlen, hbytes⟩, hascii, -⟩
      have hlen' : lit.len ≤ s.len := hlen
      refine ⟨by omega, hascii, fun i hi => ?_⟩
      rw [holding_of_lt (Nat.lt_of_lt_of_le hi hlen'), hbytes i hi]
  · rename_i hlong
    refine ⟨fun h => ?_, fun h => absurd h.2.2 (by omega)⟩
    have := h.1
    simp only [LenTest.holds, decide_eq_true_eq] at this
    omega

end Decides

/-! ### Exactness -/

/-- **When matching is exact.**  A generated match says of an accepted literal and a string what
its name says exactly when, should they match, the literal is ASCII and, for a prefix, the path is
shorter than the scratch buffer. -/
theorem matching_exact_iff (lit s : CString) (error : Nat) (old : Nat → BitVec 8) :
    (∀ m, ccEmitPathEq lit = .ok m →
      ((m.onPath error old (some s) = 1 ↔ s = lit) ↔ (s = lit → Ascii lit))) ∧
    (∀ m, ccEmitKfieldStrEq lit = .ok m →
      ((m.onString old s = 1 ↔ s = lit) ↔ (s = lit → Ascii lit))) ∧
    (∀ m, ccEmitPathStartsWith lit = .ok m →
      ((m.onPath error old (some s) = 1 ↔ lit.bytes <+: s.bytes) ↔
        (lit.bytes <+: s.bytes → Ascii lit ∧ s.len < 4096))) := by
  refine ⟨fun m hm => ?_, fun m hm => ?_, fun m hm => ?_⟩
  · rw [pathEq_eq_one error old hm, and_iff_left_iff_imp]
  · rw [kfieldStrEq_eq_one old hm, and_iff_left_iff_imp]
  · rw [pathStartsWith_eq_one error old hm, and_iff_left_iff_imp]

/-- The path `/é`, in UTF-8. -/
def accented : CString := ⟨[0x2f, 0xc3, 0xa9], by decide⟩

/-- **A literal outside ASCII matches nothing.**  The path `/é` is not equal to itself. -/
theorem accented_never_matches :
    ∃ m, ccEmitPathEq accented = .ok m ∧ m.onPath 35 (fun _ => 0) (some accented) = 0 :=
  ⟨_, rfl, by decide⟩

end SpinelEbpf.Codegen

import SpinelEbpf.Support.Number
import SpinelEbpf.Support.Twos

/-!
# Otlp — the command and key of a Redis request

A Redis request is an array of bulk strings, `*N\r\n$len\r\n<data>\r\n…`, of which a probe captured
the first bytes.  `redis_parse_cmd_key` takes the command and the key out of it, the first two
elements, and never the values behind them.

A request is `Request`; what was captured of it is `captured`.  The reader is followed one element
at a time: what `bulk` copies from the bytes of an element depends only on that element and on how
many bytes are there (`map_fst_bulk`), and past an element without a line feed it stands at the
next one (`skipLine_bulk`).

`values_never_captured` states the three results: requests with the same first two elements cannot
be told apart by what is copied; the command is the upper-cased start of the first element and the
key the masked start of the second.  What is copied is a start of the element for every length; it
is all that the buffer and the output can hold when the length fits in a `long`.
-/

namespace SpinelEbpf.Otlp.Redis
open Json Number

/-! ### The reader -/

/-- The loops that go past the next line feed. -/
def skipLine (s : Text) : Text := (s.dropWhile (· ≠ 10)).drop 1

/-- One step of the accumulator of a length; a `long` that overflows wraps. -/
def longStep (l : Int) (c : UInt8) : Int := (l * 10 + (c.toNat - 48 : Int)).bmod (2 ^ 64)

/-- The length in some digits. -/
def parseLong (digits : Text) : Int := digits.foldl longStep 0

/-- The copying loop at `k` and `j`: the bytes written, each changed by `f`, and what is left. -/
def copy (f : UInt8 → UInt8) (l : Int) (cap : Nat) : Nat → Nat → Text → Text × Text
  | _, _, []      => ([], [])
  | k, j, c :: cs =>
      if (k : Int) < l ∧ j + 1 < cap then
        let r := copy f l cap (k + 1) (j + 1) cs
        (f c :: r.1, r.2)
      else ([], c :: cs)

/-- An element: its `$`, its length and what is copied of its data. -/
def bulk (f : UInt8 → UInt8) (cap : Nat) : Text → Option (Text × Text)
  | []     => none
  | c :: s =>
      if c ≠ 36 then none
      else
        let digits := s.takeWhile isDigit
        let l := parseLong digits
        if digits = [] ∨ l < 0 then none
        else some (copy f l cap 0 0 (skipLine (s.dropWhile isDigit)))

/-- The command's letters are upper-cased. -/
def upper (c : UInt8) : UInt8 := if 97 ≤ c ∧ c ≤ 122 then c - 32 else c

/-- Control characters and non-ASCII bytes of the key are masked. -/
def mask (c : UInt8) : UInt8 := if 32 ≤ c ∧ c < 127 then c else 46

/-- The two elements. -/
def cmdKey (cmdcap keycap : Nat) (s : Text) : Text × Text :=
  match bulk upper cmdcap s with
  | none   => ([], [])
  | some r =>
      match bulk mask keycap (skipLine r.2) with
      | none   => (r.1, [])
      | some q => (r.1, q.1)

/-- `redis_parse_cmd_key`: the command and the key, each without its terminator. -/
def redisParseCmdKey (req : Text) (cmdcap keycap : Nat) : Text × Text :=
  if req.length < 4 ∨ req.head? ≠ some 42 then ([], []) else cmdKey cmdcap keycap (skipLine req)

/-! ### Requests -/

/-- A number of a request: some digits. -/
structure Digits where
  text : Text
  nonempty : text ≠ []
  digits : ∀ c ∈ text, isDigit c = true

/-- A bulk string: its data behind its length. -/
structure Bulk where
  size : Digits
  data : Text
  size_eq : digitsValue size.text = data.length

/-- A bulk string up to its data. -/
def Bulk.head (e : Bulk) : Text := 36 :: (e.size.text ++ [13, 10])

/-- The bytes of a bulk string. -/
def Bulk.encode (e : Bulk) : Text := e.head ++ (e.data ++ [13, 10])

/-- A well-formed array of bulk strings. -/
structure Request where
  count : Digits
  elements : List Bulk
  count_eq : digitsValue count.text = elements.length

/-- A request up to its elements. -/
def Request.head (r : Request) : Text := 42 :: (r.count.text ++ [13, 10])

/-- The bytes of a request. -/
def Request.encode (r : Request) : Text := r.head ++ r.elements.flatMap Bulk.encode

/-- The buffer of `n` bytes: the first bytes of a request, and of what stood behind a short one. -/
def captured (r : Request) (fill : Text) (n : Nat) : Text := (r.encode ++ fill).take n

/-! ### The loops -/

variable {line : Text} {n : Nat}

theorem forall_ne_lf (h : 10 ∉ line) : ∀ c ∈ line, decide (c ≠ 10) = true :=
  fun _ hc => decide_eq_true fun heq => h (heq ▸ hc)

theorem skipLine_of_notMem (h : 10 ∉ line) : skipLine line = [] := by
  rw [skipLine, List.dropWhile_eq_nil_iff.mpr (forall_ne_lf h), List.drop_nil]

/-- Past a line that may be cut off. -/
theorem skipLine_take (h : 10 ∉ line) (t : Text) (k : Nat) :
    skipLine ((line ++ 10 :: t).take k) = t.take (k - (line.length + 1)) := by
  rcases Nat.lt_or_ge line.length k with hk | hk
  · obtain ⟨m, rfl⟩ : ∃ m, k = line.length + (m + 1) := ⟨k - line.length - 1, by omega⟩
    rw [List.take_append, List.take_of_length_le (by omega), Nat.add_sub_cancel_left,
      List.take_succ_cons, skipLine, List.dropWhile_append_of_pos (forall_ne_lf h),
      List.dropWhile_cons_of_neg (by decide), List.drop_one, List.tail_cons]
    congr 1
    omega
  · rw [List.take_append_of_le_length hk,
      skipLine_of_notMem fun hmem => h (List.mem_of_mem_take hmem),
      Nat.sub_eq_zero_of_le (by omega), List.take_zero]

theorem digit_ne_lf {c : UInt8} (h : isDigit c = true) : c ≠ 10 := by
  rintro rfl
  exact absurd h (by decide)

theorem Digits.lf_notMem (d : Digits) : 10 ∉ d.text := fun h => digit_ne_lf (d.digits 10 h) rfl

/-- One digit more, wrapped before or after. -/
theorem longStep_bmod (n : Nat) {c : UInt8} (hc : isDigit c = true) :
    longStep ((n : Int).bmod (2 ^ 64)) c =
      ((10 * n + (c.toNat - 48) : Nat) : Int).bmod (2 ^ 64) := by
  have hc48 : 48 ≤ c.toNat := by
    simp only [isDigit, Bool.and_eq_true, decide_eq_true_eq, UInt8.le_iff_toNat_le] at hc
    exact hc.1
  have hcast : ((10 * n + (c.toNat - 48) : Nat) : Int) = (n : Int) * 10 + ((c.toNat : Int) - 48) := by
    push_cast [Nat.cast_sub hc48]
    ring
  rw [longStep, Int.add_bmod, Int.mul_bmod, Int.bmod_bmod, ← Int.mul_bmod, ← Int.add_bmod, hcast]

/-- The accumulator is the number, wrapped. -/
theorem parseLong_eq (d : Digits) : parseLong d.text = (digitsValue d.text : Int).bmod (2 ^ 64) := by
  have hfold : ∀ (t : Text) (n : Nat), (∀ c ∈ t, isDigit c = true) →
      t.foldl longStep ((n : Int).bmod (2 ^ 64)) =
        ((t.foldl (fun n c => 10 * n + (c.toNat - 48)) n : Nat) : Int).bmod (2 ^ 64) := by
    intro t
    induction t with
    | nil => intro n _; rw [List.foldl_nil, List.foldl_nil]
    | cons c t ih =>
        intro n ht
        rw [List.foldl_cons, List.foldl_cons, longStep_bmod n (ht c List.mem_cons_self)]
        exact ih _ fun c hc => ht c (List.mem_cons_of_mem _ hc)
  have h := hfold d.text 0 d.digits
  rwa [Nat.cast_zero, Int.zero_bmod] at h

/-- The copying loop takes as many bytes as the length and the output allow. -/
theorem copy_eq (f : UInt8 → UInt8) (l : Int) (cap k : Nat) (s : Text) :
    copy f l cap k k s =
      ((s.take (min (l.toNat - k) (cap - 1 - k))).map f, s.drop (min (l.toNat - k) (cap - 1 - k)))
    := by
  induction s generalizing k with
  | nil => simp [copy]
  | cons c cs ih =>
      rw [copy]
      split
      · rename_i hroom
        obtain ⟨m, hm⟩ : ∃ m, min (l.toNat - k) (cap - 1 - k) = m + 1 :=
          ⟨min (l.toNat - k) (cap - 1 - k) - 1, by omega⟩
        have hm' : min (l.toNat - (k + 1)) (cap - 1 - (k + 1)) = m := by omega
        rw [ih (k + 1), hm, hm', List.take_succ_cons, List.drop_succ_cons, List.map_cons]
      · rw [show min (l.toNat - k) (cap - 1 - k) = 0 by omega]
        rfl

/-! ### One element -/

section Element

variable {f : UInt8 → UInt8} {cap : Nat} {e : Bulk}

/-- The length as the reader has it. -/
def Bulk.long (e : Bulk) : Int := parseLong e.size.text

/-- The reader never counts more bytes than the element has. -/
theorem Bulk.toNat_long_le (e : Bulk) : e.long.toNat ≤ e.data.length := by
  have hlong : e.long = (e.data.length : Int).bmod (2 ^ 64) := by
    rw [Bulk.long, parseLong_eq, e.size_eq]
  have hle : (e.data.length : Int).bmod (2 ^ 64) ≤ e.data.length := by
    rw [Int.bmod_def]
    split <;> omega
  omega

/-- A length that fits in a `long` is read as it is. -/
theorem Bulk.long_eq (e : Bulk) (h : e.data.length < 2 ^ 63) : e.long = e.data.length := by
  rw [Bulk.long, parseLong_eq, e.size_eq, show (2 : Nat) ^ 64 = 2 ^ (63 + 1) from rfl,
    Twos.bmod_eq_self_iff]
  exact ⟨by omega, by omega⟩

theorem bulk_head (s : Text) :
    bulk f cap (e.head ++ s) = if e.long < 0 then none else some (copy f e.long cap 0 0 s) := by
  have hdigits : (e.size.text ++ (13 :: 10 :: s)).takeWhile isDigit = e.size.text := by
    rw [List.takeWhile_append_of_pos e.size.digits, List.takeWhile_cons_of_neg (by decide),
      List.append_nil]
  have hrest : (e.size.text ++ (13 :: 10 :: s)).dropWhile isDigit = 13 :: 10 :: s := by
    rw [List.dropWhile_append_of_pos e.size.digits, List.dropWhile_cons_of_neg (by decide)]
  have hhead : e.head ++ s = 36 :: (e.size.text ++ (13 :: 10 :: s)) := by simp [Bulk.head]
  rw [hhead, bulk, if_neg (by decide)]
  simp only [hdigits, hrest, e.size.nonempty, false_or]
  rfl

/-- Cut off before its data, an element gives nothing. -/
theorem bulk_take_head (hn : n < e.head.length) {r : Text × Text}
    (h : bulk f cap (e.head.take n) = some r) : r = ([], []) := by
  cases n with
  | zero => cases h
  | succ n =>
      have htake : e.head.take (n + 1) = 36 :: (e.size.text ++ [13, 10]).take n := rfl
      rw [htake, bulk, if_neg (by decide)] at h
      have hlf : 10 ∉ (e.size.text ++ [13, 10]).take n := by
        have hle : n ≤ (e.size.text ++ [13]).length := by
          simp only [Bulk.head, List.length_cons, List.length_append, List.length_nil] at hn ⊢
          omega
        intro hmem
        rw [show e.size.text ++ [13, 10] = (e.size.text ++ [13]) ++ [10] by simp,
          List.take_append_of_le_length hle] at hmem
        have hline := List.mem_of_mem_take hmem
        simp [e.size.lf_notMem] at hline
      have hskip := skipLine_of_notMem fun hmem =>
        hlf ((List.dropWhile_suffix isDigit).subset hmem)
      simp only [hskip, copy] at h
      split at h
      · cases h
      · exact (Option.some.inj h).symm

/-- The bytes of an element and of what follows, cut off in or behind the length. -/
theorem encode_take (tail : Text) (n : Nat) :
    (e.encode ++ tail).take n =
      if n < e.head.length then e.head.take n
      else e.head ++ (e.data ++ 13 :: 10 :: tail).take (n - e.head.length) := by
  have hsplit : e.encode ++ tail = e.head ++ (e.data ++ 13 :: 10 :: tail) := by simp [Bulk.encode]
  rw [hsplit]
  split
  · rw [List.take_append_of_le_length (by omega)]
  · rw [List.take_append, List.take_of_length_le (by omega)]

/-- What is copied of an element of which `n` bytes are there. -/
def Bulk.copied (f : UInt8 → UInt8) (cap : Nat) (e : Bulk) (n : Nat) : Option Text :=
  (bulk f cap (e.encode.take n)).map Prod.fst

/-- The copied bytes are data, whatever follows. -/
theorem copy_data (k : Nat) (tail : Text) :
    (copy f e.long cap 0 0 ((e.data ++ tail).take k)).1 =
      (e.data.take (min (min e.long.toNat (cap - 1)) k)).map f := by
  have hle := e.toNat_long_le
  rw [copy_eq, List.take_take, Nat.sub_zero, Nat.sub_zero, List.take_append_of_le_length (by omega)]

/-- **What is copied does not depend on what follows the element.** -/
theorem map_fst_bulk (tail : Text) (n : Nat) :
    (bulk f cap ((e.encode ++ tail).take n)).map Prod.fst = e.copied f cap n := by
  have hself : e.encode.take n = (e.encode ++ []).take n := by rw [List.append_nil]
  rw [Bulk.copied, hself, encode_take, encode_take]
  split
  · rfl
  · rw [bulk_head, bulk_head]
    split
    · rfl
    · rw [Option.map_some, Option.map_some, copy_data, copy_data]

/-- Past an element without a line feed stands what follows it. -/
theorem skipLine_bulk (hlf : 10 ∉ e.data) {tail : Text} {r : Text × Text}
    (h : bulk f cap ((e.encode ++ tail).take n) = some r) :
    skipLine r.2 = tail.take (n - e.encode.length) := by
  have hlen : e.encode.length = e.head.length + e.data.length + 2 := by
    simp [Bulk.encode]
    omega
  rw [encode_take] at h
  split at h
  · rename_i hn
    rw [bulk_take_head hn h, Nat.sub_eq_zero_of_le (by omega), List.take_zero]
    rfl
  · rename_i hn
    rw [bulk_head] at h
    split at h
    · cases h
    · cases Option.some.inj h
      have hle : min e.long.toNat (cap - 1) ≤ e.data.length :=
        (Nat.min_le_left _ _).trans e.toNat_long_le
      rw [copy_eq, Nat.sub_zero, Nat.sub_zero]
      change skipLine (List.drop _ _) = _
      rw [List.drop_take, List.drop_append_of_le_length hle]
      have hline : 10 ∉ e.data.drop (min e.long.toNat (cap - 1)) ++ [13] := by
        simp only [List.mem_append, List.mem_singleton, not_or]
        exact ⟨fun hmem => hlf (List.mem_of_mem_drop hmem), by decide⟩
      rw [List.append_cons, skipLine_take hline, List.length_append, List.length_drop,
        List.length_singleton, hlen]
      congr 1
      omega

/-- Before its data begins, nothing is copied of an element. -/
theorem Bulk.getD_copied_head (hn : n < e.head.length) :
    (e.copied f cap n).getD [] = [] := by
  have hself : e.encode.take n = e.head.take n := by
    rw [← List.append_nil e.encode, encode_take, if_pos hn]
  rw [Bulk.copied, hself]
  cases h : bulk f cap (e.head.take n) with
  | none => rfl
  | some r => rw [bulk_take_head hn h]; rfl

/-- From there on the length decides. -/
theorem Bulk.copied_of_le (hn : e.head.length ≤ n) :
    e.copied f cap n = if e.long < 0 then none else
      some ((e.data.take (min (min e.long.toNat (cap - 1)) (n - e.head.length))).map f) := by
  rw [Bulk.copied, ← List.append_nil e.encode, encode_take, if_neg (by omega), bulk_head]
  split
  · rfl
  · rw [Option.map_some, copy_data]

theorem Bulk.copied_eq_some (hfits : e.data.length < 2 ^ 63) (hn : e.head.length ≤ n) :
    e.copied f cap n = some (((e.data.take (n - e.head.length)).take (cap - 1)).map f) := by
  have hlong := e.long_eq hfits
  rw [Bulk.copied_of_le hn, if_neg (by omega), hlong, Int.toNat_natCast, List.take_take,
    List.take_eq_take_iff.mpr (show min (min (min e.data.length (cap - 1))
      (n - e.head.length)) e.data.length = min (min (cap - 1) (n - e.head.length)) e.data.length
      by omega)]

/-- **What is copied is the start of the element**, cut at the end of the buffer and of the
output. -/
theorem Bulk.getD_copied (hfits : e.data.length < 2 ^ 63) (n : Nat) :
    (e.copied f cap n).getD [] = ((e.data.take (n - e.head.length)).take (cap - 1)).map f := by
  rcases Nat.lt_or_ge n e.head.length with hn | hn
  · rw [Bulk.getD_copied_head hn, Nat.sub_eq_zero_of_le hn.le, List.take_zero, List.take_nil,
      List.map_nil]
  · rw [Bulk.copied_eq_some hfits hn, Option.getD_some]

/-- For every length, what is copied is some start of the element. -/
theorem Bulk.getD_copied_start (n : Nat) :
    ∃ k, (e.copied f cap n).getD [] = (e.data.take k).map f := by
  rcases Nat.lt_or_ge n e.head.length with hn | hn
  · exact ⟨0, Bulk.getD_copied_head hn⟩
  · rw [Bulk.copied_of_le hn]
    split
    · exact ⟨0, rfl⟩
    · exact ⟨_, rfl⟩

end Element

/-! ### Two elements -/

/-- The key behind a command: the second element's copied bytes, if the first was read. -/
theorem cmdKey_elements {e₁ : Bulk} (hlf : 10 ∉ e₁.data) (e₂ : Bulk) (tail : Text)
    (cmdcap keycap n : Nat) :
    cmdKey cmdcap keycap ((e₁.encode ++ (e₂.encode ++ tail)).take n) =
      (e₁.copied upper cmdcap n).elim ([], []) fun cmd =>
        (cmd, (e₂.copied mask keycap (n - e₁.encode.length)).getD []) := by
  rw [cmdKey, ← map_fst_bulk (e₂.encode ++ tail) n]
  cases h : bulk upper cmdcap ((e₁.encode ++ (e₂.encode ++ tail)).take n) with
  | none => rfl
  | some r =>
      rw [← map_fst_bulk tail]
      simp only [skipLine_bulk hlf h]
      cases bulk mask keycap ((e₂.encode ++ tail).take (n - e₁.encode.length)) <;> rfl

theorem fst_cmdKey (e : Bulk) (tail : Text) (cmdcap keycap n : Nat) :
    (cmdKey cmdcap keycap ((e.encode ++ tail).take n)).1 = (e.copied upper cmdcap n).getD [] := by
  rw [cmdKey, ← map_fst_bulk tail n]
  cases bulk upper cmdcap ((e.encode ++ tail).take n) with
  | none => rfl
  | some r =>
      simp only [Option.map_some, Option.getD_some]
      split <;> rfl

/-- The reader on a buffer: behind the count stand the elements. -/
theorem redisParseCmdKey_captured (r : Request) (fill : Text) (n cmdcap keycap : Nat) :
    redisParseCmdKey (captured r fill n) cmdcap keycap =
      if n < 4 then ([], [])
      else cmdKey cmdcap keycap
        ((r.elements.flatMap Bulk.encode ++ fill).take (n - r.head.length)) := by
  have hcount : 0 < r.count.text.length := List.length_pos_iff.mpr r.count.nonempty
  have hline : 10 ∉ 42 :: (r.count.text ++ [13]) := by
    simp [r.count.lf_notMem]
  have hbytes : r.encode ++ fill =
      (42 :: (r.count.text ++ [13])) ++ 10 :: (r.elements.flatMap Bulk.encode ++ fill) := by
    simp [Request.encode, Request.head]
  have hhead : r.head.length = (42 :: (r.count.text ++ [13])).length + 1 := by
    simp [Request.head]
  have hshort : (captured r fill n).length < 4 ∨ (captured r fill n).head? ≠ some 42 ↔ n < 4 := by
    rw [captured, hbytes]
    cases n with
    | zero => simp
    | succ n =>
        simp only [List.cons_append, List.take_succ_cons, List.head?_cons, ne_eq, not_true,
          or_false, List.length_cons, List.length_take, List.length_append, List.length_nil]
        omega
  simp only [redisParseCmdKey, hshort]
  rw [captured, hbytes, skipLine_take hline, ← hhead]

theorem four_le_length_head (r : Request) : 4 ≤ r.head.length := by
  have hcount : 0 < r.count.text.length := List.length_pos_iff.mpr r.count.nonempty
  simp only [Request.head, List.length_cons, List.length_append, List.length_nil]
  omega

/-- Requests that start with the same two elements are read alike. -/
theorem redisParseCmdKey_congr {a b : Request} (hcount : a.count.text.length = b.count.text.length)
    (htake : a.elements.take 2 = b.elements.take 2)
    (hlf : ∀ e, a.elements.head? = some e → 10 ∉ e.data) (fill : Text) (n cmdcap keycap : Nat) :
    redisParseCmdKey (captured a fill n) cmdcap keycap =
      redisParseCmdKey (captured b fill n) cmdcap keycap := by
  have hhead : a.head.length = b.head.length := by simp [Request.head, hcount]
  rw [redisParseCmdKey_captured, redisParseCmdKey_captured, hhead]
  -- fewer than two elements are all there is; behind two, the rest does not matter
  match ha : a.elements, hb : b.elements with
  | [], [] => rfl
  | [_], [_] => rw [ha, hb] at htake; cases htake; rfl
  | e₁ :: e₂ :: ra, e₁' :: e₂' :: rb =>
      rw [ha, hb] at htake
      obtain ⟨rfl, rfl⟩ : e₁ = e₁' ∧ e₂ = e₂' := by simpa using htake
      have hlf₁ := hlf e₁ (by rw [ha]; rfl)
      simp only [List.flatMap_cons, List.append_assoc]
      rw [cmdKey_elements hlf₁, cmdKey_elements hlf₁]
  | [], _ :: _ | _ :: _, [] | [_], _ :: _ :: _ | _ :: _ :: _, [_] =>
      rw [ha, hb] at htake
      simp at htake

/-- The command, for every request with an element. -/
theorem fst_redisParseCmdKey {r : Request} {e : Bulk} {rest : List Bulk}
    (hr : r.elements = e :: rest) (fill : Text) (n cmdcap keycap : Nat) :
    (redisParseCmdKey (captured r fill n) cmdcap keycap).1 =
      (e.copied upper cmdcap (n - r.head.length)).getD [] := by
  have hhead := four_le_length_head r
  have hpos : 0 < e.head.length := by simp [Bulk.head]
  rw [redisParseCmdKey_captured]
  split
  · rw [Bulk.getD_copied_head (by omega)]
  · rw [hr, List.flatMap_cons, List.append_assoc, fst_cmdKey]

/-- The key, for every request with two elements. -/
theorem snd_redisParseCmdKey {r : Request} {e₁ e₂ : Bulk} {rest : List Bulk}
    (hr : r.elements = e₁ :: e₂ :: rest) (hlf : 10 ∉ e₁.data) (fill : Text)
    (n cmdcap keycap : Nat) :
    (redisParseCmdKey (captured r fill n) cmdcap keycap).2 =
      (e₁.copied upper cmdcap (n - r.head.length)).elim [] fun _ =>
        (e₂.copied mask keycap (n - r.head.length - e₁.encode.length)).getD [] := by
  have hhead := four_le_length_head r
  rw [redisParseCmdKey_captured]
  split
  · have hpos : 0 < e₂.head.length := by simp [Bulk.head]
    rw [Bulk.getD_copied_head (by omega)]
    cases e₁.copied upper cmdcap (n - r.head.length) <;> rfl
  · simp only [hr, List.flatMap_cons, List.append_assoc]
    rw [cmdKey_elements hlf]
    cases e₁.copied upper cmdcap (n - r.head.length) <;> rfl

/-- **Values are never captured.**  Requests with the same first two elements, the first without a
line feed, and counts of the same width are read alike from buffers of the same length.  The command
is a start of the first element, upper-cased, and the key one of the second, masked: as much as the
element has, the buffer holds and the output takes, for elements whose length a `long` can hold. -/
theorem values_never_captured :
    (∀ a b : Request, a.count.text.length = b.count.text.length →
      a.elements.take 2 = b.elements.take 2 →
      (∀ e, a.elements.head? = some e → 10 ∉ e.data) → ∀ (fill : Text) (n cmdcap keycap : Nat),
      redisParseCmdKey (captured a fill n) cmdcap keycap =
        redisParseCmdKey (captured b fill n) cmdcap keycap) ∧
    (∀ (r : Request) (e : Bulk) (rest : List Bulk), r.elements = e :: rest →
      ∀ (fill : Text) (n cmdcap keycap : Nat),
      (∃ k, (redisParseCmdKey (captured r fill n) cmdcap keycap).1 = (e.data.take k).map upper) ∧
      (e.data.length < 2 ^ 63 → (redisParseCmdKey (captured r fill n) cmdcap keycap).1 =
        ((e.data.take (n - (r.head.length + e.head.length))).take (cmdcap - 1)).map upper)) ∧
    (∀ (r : Request) (e₁ e₂ : Bulk) (rest : List Bulk), r.elements = e₁ :: e₂ :: rest →
      10 ∉ e₁.data → ∀ (fill : Text) (n cmdcap keycap : Nat),
      (∃ k, (redisParseCmdKey (captured r fill n) cmdcap keycap).2 = (e₂.data.take k).map mask) ∧
      (e₁.data.length < 2 ^ 63 → e₂.data.length < 2 ^ 63 →
        (redisParseCmdKey (captured r fill n) cmdcap keycap).2 =
          ((e₂.data.take (n - (r.head.length + e₁.encode.length + e₂.head.length))).take
            (keycap - 1)).map mask)) := by
  refine ⟨fun a b hcount htake hlf => redisParseCmdKey_congr hcount htake hlf,
    fun r e rest hr fill n cmdcap keycap => ?_, fun r e₁ e₂ rest hr hlf fill n cmdcap keycap => ?_⟩
  · rw [fst_redisParseCmdKey hr]
    refine ⟨Bulk.getD_copied_start _, fun hfits => ?_⟩
    rw [Bulk.getD_copied hfits, Nat.sub_sub]
  · rw [snd_redisParseCmdKey hr hlf]
    refine ⟨?_, fun hfits₁ hfits₂ => ?_⟩
    · cases e₁.copied upper cmdcap (n - r.head.length) with
      | none => exact ⟨0, rfl⟩
      | some cmd => exact Bulk.getD_copied_start _
    · rw [← Nat.sub_sub, ← Nat.sub_sub, ← Bulk.getD_copied hfits₂]
      rcases Nat.lt_or_ge (n - r.head.length) e₁.head.length with hn | hn
      · -- the first element is cut off before its data, so nothing of the second is there
        have hlen : e₁.head.length ≤ e₁.encode.length := by simp [Bulk.encode]
        have hpos : 0 < e₂.head.length := by simp [Bulk.head]
        rw [Bulk.getD_copied_head (by omega)]
        cases e₁.copied upper cmdcap (n - r.head.length) <;> rfl
      · rw [Bulk.copied_eq_some hfits₁ hn]
        rfl

theorem digits_digit (h : n < 10) : ∀ c ∈ [digit n], isDigit c = true := by
  intro c hc
  rw [List.mem_singleton.mp hc]
  exact isDigit_digit h

theorem digitsValue_digit (h : n < 10) : digitsValue [digit n] = n := by
  rw [digitsValue, List.foldl_cons, List.foldl_nil, digit_toNat h]
  omega

/-- A bulk string of one-digit length. -/
def shortBulk (data : Text) (h : data.length < 10) : Bulk :=
  ⟨⟨[digit data.length], List.cons_ne_nil _ _, digits_digit h⟩, data, digitsValue_digit h⟩

/-- `set k` with a value. -/
def setRequest (value : Text) (h : value.length < 10) : Request where
  count := ⟨[51], List.cons_ne_nil _ _, fun c hc => by rw [List.mem_singleton.mp hc]; rfl⟩
  elements := [shortBulk [115, 101, 116] (by decide), shortBulk [107] (by decide),
    shortBulk value h]
  count_eq := rfl

theorem values_never_captured_set :
    redisParseCmdKey (captured (setRequest [1, 2] (by decide)) [] 24) 16 16 =
      redisParseCmdKey (captured (setRequest [3] (by decide)) [] 24) 16 16 ∧
    (redisParseCmdKey (captured (setRequest [3] (by decide)) [] 24) 16 16).1 = [83, 69, 84] ∧
    (redisParseCmdKey (captured (setRequest [3] (by decide)) [] 24) 16 16).2 = [107] :=
  ⟨values_never_captured.1 _ _ rfl rfl (fun e he => by cases Option.some.inj he; decide) _ _ _ _,
    (values_never_captured.2.1 (setRequest [3] (by decide)) _ _ rfl [] 24 16 16).2 (by decide),
    (values_never_captured.2.2 (setRequest [3] (by decide)) _ _ _ rfl (by decide) [] 24 16 16).2
      (by decide) (by decide)⟩

end SpinelEbpf.Otlp.Redis

import SpinelEbpf.Support.Json

/-!
# Support — Numbers as text and as doubles

Decimal texts, the texts that `%g` makes of whole numbers, and the bit patterns of doubles.  `%g`
keeps six significant digits: the value of its text is the number itself exactly when the number has
no more (`numValue_gText`, `rounded_eq_iff`).  Whole numbers below `2 ^ 53` are doubles
(`doubleValue_doubleBits`).
-/

namespace Number
open Json (Text isDigit)

/-! ### Decimal texts -/

/-- The character of a digit. -/
def digit (d : Nat) : UInt8 := UInt8.ofNat (48 + d)

/-- The text of some digits, the lowest first. -/
def digitText (ds : List Nat) : Text := ds.reverse.map digit

/-- `%llu`. -/
def decimal (n : Nat) : Text := if n = 0 then [48] else digitText (Nat.digits 10 n)

/-- The number of some digits. -/
def digitsValue (t : Text) : Nat := t.foldl (fun n c => 10 * n + (c.toNat - 48)) 0

/-- The number of a text that has digits only. -/
def ofDecimal (t : Text) : Option Nat :=
  if t ≠ [] ∧ t.all isDigit = true then some (digitsValue t) else none

variable {d n : Nat} {ds : List Nat} {t : Text}

theorem digit_toNat (h : d < 10) : (digit d).toNat = 48 + d := by
  rw [digit, UInt8.toNat_ofNat']
  omega

theorem isDigit_digit (h : d < 10) : isDigit (digit d) = true := by
  have hnat := digit_toNat h
  rw [isDigit, Bool.and_eq_true, decide_eq_true_eq, decide_eq_true_eq, UInt8.le_iff_toNat_le,
    UInt8.le_iff_toNat_le, hnat]
  exact ⟨Nat.le_add_right 48 d, by change 48 + d ≤ 57; omega⟩

theorem digitsValue_append (s t : Text) :
    digitsValue (s ++ t) = digitsValue s * 10 ^ t.length + digitsValue t := by
  have hfold : ∀ (t : Text) (a : Nat), t.foldl (fun n c => 10 * n + (c.toNat - 48)) a =
      a * 10 ^ t.length + digitsValue t := by
    intro t
    induction t with
    | nil => intro a; simp [digitsValue]
    | cons c t ih =>
        intro a
        have hcons : digitsValue (c :: t) = (c.toNat - 48) * 10 ^ t.length + digitsValue t := by
          rw [digitsValue, List.foldl_cons, ih, Nat.mul_zero, Nat.zero_add]
        rw [List.foldl_cons, ih, hcons, List.length_cons, Nat.pow_succ]
        ring
  rw [digitsValue, List.foldl_append, hfold]
  rfl

theorem digitsValue_digitText (h : ∀ d ∈ ds, d < 10) :
    digitsValue (digitText ds) = Nat.ofDigits 10 ds := by
  induction ds with
  | nil => rfl
  | cons d ds ih =>
      obtain ⟨hd, hds⟩ := List.forall_mem_cons.mp h
      have hone : digitsValue [digit d] = d := by
        rw [digitsValue, List.foldl_cons, List.foldl_nil, digit_toNat hd]
        omega
      rw [digitText, List.reverse_cons, List.map_append, digitsValue_append, ← digitText, ih hds,
        List.map_singleton, hone, Nat.ofDigits_cons, List.length_singleton]
      ring

theorem all_isDigit_digitText (h : ∀ d ∈ ds, d < 10) :
    (digitText ds).all isDigit = true := by
  rw [List.all_eq_true]
  intro c hc
  obtain ⟨d, hd, rfl⟩ := List.mem_map.mp hc
  exact isDigit_digit (h d (List.mem_reverse.mp hd))

theorem decimal_spec (n : Nat) :
    decimal n ≠ [] ∧ (decimal n).all isDigit = true ∧ digitsValue (decimal n) = n := by
  unfold decimal
  split
  · rename_i hn
    rw [hn]
    exact ⟨by decide, by decide, by decide⟩
  · rename_i hn
    have hlt : ∀ d ∈ Nat.digits 10 n, d < 10 := fun d hd => Nat.digits_lt_base (by omega) hd
    refine ⟨?_, all_isDigit_digitText hlt, ?_⟩
    · rw [digitText, Ne, List.map_eq_nil_iff, List.reverse_eq_nil_iff,
        Nat.digits_eq_nil_iff_eq_zero]
      exact hn
    · rw [digitsValue_digitText hlt, Nat.ofDigits_digits]

theorem ofDecimal_decimal (n : Nat) : ofDecimal (decimal n) = some n := by
  obtain ⟨hne, hall, hvalue⟩ := decimal_spec n
  rw [ofDecimal, if_pos ⟨hne, hall⟩, hvalue]

/-- `%lld`. -/
def signed (v : Int) : Text := if v < 0 then 45 :: decimal v.natAbs else decimal v.natAbs

/-- The integer of a text that has digits only, but for a minus. -/
def ofSigned (t : Text) : Option Int :=
  if t.head? = some 45 then (ofDecimal t.tail).map fun n : Nat => -(n : Int)
  else (ofDecimal t).map fun n : Nat => (n : Int)

/-! ### Numbers of JSON -/

/-- The exponent of a number: none, or a signed decimal after `e`. -/
def exponent : Text → Option Int
  | [] => some 0
  | e :: t =>
      if e = 101 ∨ e = 69 then
        if t.head? = some 45 then (ofDecimal t.tail).map fun n : Nat => -(n : Int)
        else if t.head? = some 43 then (ofDecimal t.tail).map Int.ofNat
        else (ofDecimal t).map Int.ofNat
      else none

/-- The value of a number without a sign. -/
def magnitude (t : Text) : Option ℚ := do
  let int := t.takeWhile isDigit
  let rest := t.dropWhile isDigit
  let frac := if rest.head? = some 46 then rest.tail.takeWhile isDigit else []
  let rest := if rest.head? = some 46 then rest.tail.dropWhile isDigit else rest
  let e ← exponent rest
  if int = [] then none
  else some (digitsValue (int ++ frac) * (10 : ℚ) ^ (e - frac.length))

/-- The value of the text of a number. -/
def numValue (t : Text) : Option ℚ :=
  if t.head? = some 45 then (magnitude t.tail).map fun v => -v else magnitude t

/-! ### The format `%g` -/

/-- `n / d`, to the nearest; in the middle to the even one. -/
def nearest (n d : Nat) : Nat :=
  if 2 * (n % d) > d ∨ (2 * (n % d) = d ∧ n / d % 2 = 1) then n / d + 1 else n / d

/-- Six significant digits of a number that has more, and the power of ten that they stand for. -/
def sixDigits (n : Nat) : Nat × Nat :=
  let k := (Nat.digits 10 n).length - 6
  let q := nearest n (10 ^ k)
  if q = 10 ^ 6 then (10 ^ 5, k + 1) else (q, k)

/-- A digit, and more behind a point. -/
def mantissa : Text → Text
  | []      => []
  | [c]     => [c]
  | c :: cs => c :: 46 :: cs

/-- Two digits at least. -/
def atLeastTwo (n : Nat) : Text := if n < 10 then 48 :: decimal n else decimal n

/-- `%g` of a whole number. -/
def gText (n : Nat) : Text :=
  if n < 10 ^ 6 then decimal n
  else
    let (q, k) := sixDigits n
    mantissa (digitText ((Nat.digits 10 q).dropWhile (· = 0))) ++ Json.ascii "e+" ++
      atLeastTwo (k + 5)

/-- The number that the text stands for. -/
def rounded (n : Nat) : Nat := if n < 10 ^ 6 then n else (sixDigits n).1 * 10 ^ (sixDigits n).2

/-- At most six significant digits. -/
def SixDigits (n : Nat) : Prop := ∃ q k, q < 10 ^ 6 ∧ n = q * 10 ^ k

theorem takeWhile_isDigit {s : Text} (hs : s.all isDigit = true)
    (ht : ∀ c ∈ t.head?, isDigit c = false) :
    (s ++ t).takeWhile isDigit = s ∧ (s ++ t).dropWhile isDigit = t := by
  have hall := List.all_eq_true.mp hs
  rw [List.takeWhile_append_of_pos hall, List.dropWhile_append_of_pos hall]
  cases t with
  | nil => exact ⟨List.append_nil _, rfl⟩
  | cons c cs =>
      have hc : isDigit c = false := ht c rfl
      rw [List.takeWhile_cons_of_neg (by simp [hc]), List.dropWhile_cons_of_neg (by simp [hc])]
      exact ⟨List.append_nil _, rfl⟩

theorem head?_ne_minus (hne : t ≠ []) (hall : t.all isDigit = true) :
    t.head? ≠ some 45 := by
  cases t with
  | nil => exact absurd rfl hne
  | cons c cs =>
      rintro h
      obtain rfl := Option.some.inj h
      exact absurd (List.all_eq_true.mp hall _ List.mem_cons_self) (by decide)

theorem ofSigned_signed (v : Int) : ofSigned (signed v) = some v := by
  obtain ⟨hne, hall, -⟩ := decimal_spec v.natAbs
  unfold signed
  split
  · rw [ofSigned, List.head?_cons, if_pos rfl, List.tail_cons, ofDecimal_decimal, Option.map_some]
    congr 1
    omega
  · rw [ofSigned, if_neg (head?_ne_minus hne hall), ofDecimal_decimal, Option.map_some]
    congr 1
    omega

theorem length_decimal_le {k : Nat} (hk : 0 < k) (h : n < 10 ^ k) : (decimal n).length ≤ k := by
  unfold decimal
  split
  · exact hk
  · rw [digitText, List.length_map, List.length_reverse]
    exact (Nat.digits_length_le_iff (by omega) n).mpr h

theorem length_signed_le {v : Int} {k : Nat} (hk : 0 < k) (h : v.natAbs < 10 ^ k) :
    (signed v).length ≤ k + 1 := by
  have hlen := length_decimal_le hk h
  unfold signed
  split
  · exact Nat.succ_le_succ hlen
  · exact hlen.trans (Nat.le_succ k)

theorem numValue_decimal (n : Nat) : numValue (decimal n) = some (n : ℚ) := by
  obtain ⟨hne, hall, hvalue⟩ := decimal_spec n
  obtain ⟨htake, hdrop⟩ := takeWhile_isDigit hall (t := []) (fun c hc => by cases hc)
  rw [List.append_nil] at htake hdrop
  rw [numValue, if_neg (head?_ne_minus hne hall), magnitude, htake, hdrop]
  simp [exponent, hne, hvalue]

theorem atLeastTwo_spec (n : Nat) : ofDecimal (atLeastTwo n) = some n := by
  obtain ⟨hne, hall, hvalue⟩ := decimal_spec n
  unfold atLeastTwo
  split
  · have hcons : digitsValue (48 :: decimal n) = n := by
      rw [← List.singleton_append, digitsValue_append, hvalue]
      simp [digitsValue]
    rw [ofDecimal, if_pos ⟨List.cons_ne_nil _ _, by simp [hall, isDigit]⟩, hcons]
  · exact ofDecimal_decimal n

theorem exponent_plus (e : Nat) : exponent (Json.ascii "e+" ++ atLeastTwo e) = some (e : Int) := by
  have hascii : Json.ascii "e+" ++ atLeastTwo e = 101 :: 43 :: atLeastTwo e := rfl
  rw [hascii, exponent, if_pos (.inl rfl), List.head?_cons, if_neg (by decide), if_pos rfl,
    List.tail_cons, atLeastTwo_spec]
  rfl

theorem not_isDigit_exponent (e : Nat) :
    ∀ d ∈ (Json.ascii "e+" ++ atLeastTwo e).head?, isDigit d = false := by
  intro d hd
  obtain rfl : 101 = d := Option.some.inj hd
  decide

/-- The value of a mantissa and an exponent. -/
theorem numValue_mantissa {c : UInt8} {cs : Text} (hall : (c :: cs).all isDigit = true) (e : Nat) :
    numValue (mantissa (c :: cs) ++ Json.ascii "e+" ++ atLeastTwo e) =
      some (digitsValue (c :: cs) * (10 : ℚ) ^ ((e : Int) - cs.length)) := by
  rw [List.all_cons, Bool.and_eq_true] at hall
  obtain ⟨hc, hcs⟩ := hall
  have hminus : c ≠ 45 := by
    rintro rfl
    exact absurd hc (by decide)
  have hone : [c].all isDigit = true := by rw [List.all_cons, hc]; rfl
  have hexp := not_isDigit_exponent e
  cases cs with
  | nil =>
      obtain ⟨htake, hdrop⟩ := takeWhile_isDigit hone hexp
      have hpoint : (Json.ascii "e+" ++ atLeastTwo e).head? ≠ some 46 := by
        intro h
        cases h
      rw [mantissa, List.append_assoc, numValue, if_neg (by simpa using hminus), magnitude, htake,
        hdrop, if_neg hpoint, if_neg hpoint, exponent_plus]
      simp
  | cons d ds =>
      have htext : mantissa (c :: d :: ds) ++ Json.ascii "e+" ++ atLeastTwo e =
          [c] ++ 46 :: (d :: ds ++ (Json.ascii "e+" ++ atLeastTwo e)) := by
        rw [mantissa, List.append_assoc]
        · rfl
        · simp
      obtain ⟨htake, hdrop⟩ := takeWhile_isDigit hone
        (t := 46 :: (d :: ds ++ (Json.ascii "e+" ++ atLeastTwo e)))
        (fun x hx => by obtain rfl : 46 = x := Option.some.inj hx; decide)
      obtain ⟨hfrac, hrest⟩ := takeWhile_isDigit hcs hexp
      rw [htext, numValue, if_neg (by simpa using hminus), magnitude, htake, hdrop]
      simp only [List.head?_cons, if_pos, List.tail_cons, hfrac, hrest, exponent_plus]
      simp

/-- Trailing zeros do not count. -/
theorem ofDigits_dropWhile (ds : List Nat) :
    Nat.ofDigits 10 ds =
      Nat.ofDigits 10 (ds.dropWhile (· = 0)) * 10 ^ (ds.length - (ds.dropWhile (· = 0)).length) := by
  induction ds with
  | nil => rfl
  | cons d ds ih =>
      by_cases hd : d = 0
      · have hlen := (List.dropWhile_suffix (l := ds) (· = 0)).length_le
        rw [List.dropWhile_cons_of_pos (by simpa using hd), hd, Nat.ofDigits_cons, ih,
          List.length_cons, Nat.succ_sub hlen, Nat.pow_succ]
        ring
      · rw [List.dropWhile_cons_of_neg (by simpa using hd), Nat.sub_self, Nat.pow_zero, Nat.mul_one]

theorem nearest_mem (n d : Nat) : nearest n d = n / d ∨ nearest n d = n / d + 1 := by
  unfold nearest
  split
  · exact .inr rfl
  · exact .inl rfl

/-- The six digits are six. -/
theorem sixDigits_bounds (h : 10 ^ 6 ≤ n) :
    10 ^ 5 ≤ (sixDigits n).1 ∧ (sixDigits n).1 < 10 ^ 6 := by
  have hupper : n < 10 ^ (Nat.digits 10 n).length := Nat.lt_base_pow_length_digits (by omega)
  have hlower : 10 ^ (Nat.digits 10 n).length ≤ 10 * n :=
    Nat.base_pow_length_digits_le 10 n (by omega) (by omega)
  have hlen : 6 < (Nat.digits 10 n).length := by
    by_contra hle
    have hpow : 10 ^ (Nat.digits 10 n).length ≤ 10 ^ 6 :=
      Nat.pow_le_pow_right (by omega) (by omega)
    omega
  obtain ⟨k, hk⟩ : ∃ k, (Nat.digits 10 n).length = k + 6 := ⟨_, (Nat.sub_add_cancel hlen.le).symm⟩
  have hpos : 0 < 10 ^ k := Nat.pow_pos (by omega)
  rw [hk, Nat.pow_add] at hupper hlower
  have hq₀ : 10 ^ 5 ≤ n / 10 ^ k := (Nat.le_div_iff_mul_le hpos).mpr (by omega)
  have hq₁ : n / 10 ^ k < 10 ^ 6 :=
    (Nat.div_lt_iff_lt_mul hpos).mpr (by rw [Nat.mul_comm]; exact hupper)
  unfold sixDigits
  rw [hk, Nat.add_sub_cancel]
  dsimp only
  rcases nearest_mem n (10 ^ k) with hq | hq <;> rw [hq] <;> split <;>
    first | decide | (dsimp only; omega)

/-- **The value of the text of `%g`.** -/
theorem numValue_gText (n : Nat) : numValue (gText n) = some (rounded n : ℚ) := by
  unfold gText rounded
  split
  · exact numValue_decimal n
  rename_i hn
  obtain ⟨hlow, hhigh⟩ := sixDigits_bounds (not_lt.mp hn)
  dsimp only
  generalize (sixDigits n).1 = q at hlow hhigh
  generalize (sixDigits n).2 = k
  have hlen : (Nat.digits 10 q).length = 6 := by
    have hupper : q < 10 ^ (Nat.digits 10 q).length := Nat.lt_base_pow_length_digits (by omega)
    have hlower : 10 ^ (Nat.digits 10 q).length ≤ 10 * q :=
      Nat.base_pow_length_digits_le 10 q (by omega) (by omega)
    have h₁ : 5 < (Nat.digits 10 q).length :=
      (Nat.pow_lt_pow_iff_right (by omega)).mp (hlow.trans_lt hupper)
    have h₂ : (Nat.digits 10 q).length < 7 :=
      (Nat.pow_lt_pow_iff_right (by omega)).mp (hlower.trans_lt (by omega))
    omega
  have hvalue := ofDigits_dropWhile (Nat.digits 10 q)
  rw [Nat.ofDigits_digits, hlen] at hvalue
  have hdigits : ∀ d ∈ (Nat.digits 10 q).dropWhile (· = 0), d < 10 := fun d hd =>
    Nat.digits_lt_base (by omega) ((List.dropWhile_suffix _).subset hd)
  have hle : ((Nat.digits 10 q).dropWhile (· = 0)).length ≤ 6 :=
    hlen ▸ (List.dropWhile_suffix _).length_le
  generalize (Nat.digits 10 q).dropWhile (· = 0) = ds at hvalue hdigits hle
  have hall := all_isDigit_digitText hdigits
  have htext := digitsValue_digitText hdigits
  have hcount : (digitText ds).length = ds.length := by
    rw [digitText, List.length_map, List.length_reverse]
  cases hds : digitText ds with
  | nil =>
      rw [hds, List.length_nil] at hcount
      rw [List.length_eq_zero_iff.mp hcount.symm] at hvalue
      simp at hvalue
      omega
  | cons c cs =>
      rw [hds] at hall htext hcount
      rw [List.length_cons] at hcount
      rw [numValue_mantissa hall, htext, hvalue]
      have hexp : ((k + 5 : ℕ) : Int) - cs.length = ((6 - ds.length + k : ℕ) : Int) := by omega
      rw [hexp, zpow_natCast, pow_add]
      push_cast
      ring_nf

/-- Dividing by a power of ten that divides leaves nothing to round. -/
theorem nearest_of_dvd (hd : 0 < d) (h : d ∣ n) : nearest n d = n / d := by
  rw [nearest, Nat.mod_eq_zero_of_dvd h, if_neg (by omega)]

/-- **`%g` keeps the number exactly when it has six significant digits.** -/
theorem rounded_eq_iff (n : Nat) : rounded n = n ↔ SixDigits n := by
  by_cases hn : n < 10 ^ 6
  · rw [rounded, if_pos hn]
    exact ⟨fun _ => ⟨n, 0, hn, (Nat.mul_one n).symm⟩, fun _ => rfl⟩
  rw [rounded, if_neg hn]
  have hbig : 10 ^ 6 ≤ n := not_lt.mp hn
  refine ⟨fun h => ⟨_, _, (sixDigits_bounds hbig).2, h.symm⟩, ?_⟩
  rintro ⟨q, k, hq, hvalue⟩
  have hlower : 10 ^ (Nat.digits 10 n).length ≤ 10 * n :=
    Nat.base_pow_length_digits_le 10 n (by omega) (by omega)
  have hupper : n < 10 ^ (Nat.digits 10 n).length := Nat.lt_base_pow_length_digits (by omega)
  -- the number has at most `k + 6` digits, so the power that is cut off divides `10 ^ k`
  have hk : (Nat.digits 10 n).length - 6 ≤ k := by
    have hlt : 10 ^ (Nat.digits 10 n).length < 10 ^ (k + 7) := by
      calc 10 ^ (Nat.digits 10 n).length
        _ ≤ 10 * (q * 10 ^ k) := hvalue ▸ hlower
        _ < 10 * (10 ^ 6 * 10 ^ k) := by
            have hpos : 0 < 10 ^ k := Nat.pow_pos (by omega)
            exact Nat.mul_lt_mul_of_pos_left (Nat.mul_lt_mul_of_pos_right hq hpos) (by omega)
        _ = 10 ^ (k + 7) := by ring
    have := (Nat.pow_lt_pow_iff_right (by omega)).mp hlt
    omega
  have hdvd : 10 ^ ((Nat.digits 10 n).length - 6) ∣ n :=
    (Nat.pow_dvd_pow 10 hk).trans (Dvd.intro_left q hvalue.symm)
  have hpos : 0 < 10 ^ ((Nat.digits 10 n).length - 6) := Nat.pow_pos (by omega)
  have hsmall : n / 10 ^ ((Nat.digits 10 n).length - 6) ≠ 10 ^ 6 := by
    have hlt : n / 10 ^ ((Nat.digits 10 n).length - 6) < 10 ^ 6 := by
      rw [Nat.div_lt_iff_lt_mul hpos, ← Nat.pow_add]
      refine hupper.trans_le (Nat.pow_le_pow_right (by omega) (by omega))
    omega
  simp only [sixDigits, nearest_of_dvd hpos hdvd, if_neg hsmall]
  exact Nat.div_mul_cancel hdvd

/-! ### The texts are numbers -/

theorem all_isNum_of_isDigit (h : t.all isDigit = true) : t.all Json.isNum = true := by
  rw [List.all_eq_true] at h ⊢
  intro c hc
  rw [Json.isNum, Bool.or_eq_true]
  exact .inl (h c hc)

theorem all_isNum_mantissa (h : t.all isDigit = true) :
    (mantissa t).all Json.isNum = true := by
  have hnum := all_isNum_of_isDigit h
  match t with
  | [] => rfl
  | [c] => exact hnum
  | c :: d :: ds =>
      rw [List.all_cons, Bool.and_eq_true] at hnum
      rw [mantissa, List.all_cons, List.all_cons, hnum.1, hnum.2]
      · rfl
      · simp

theorem all_isDigit_atLeastTwo (n : Nat) : (atLeastTwo n).all isDigit = true := by
  obtain ⟨-, hall, -⟩ := decimal_spec n
  unfold atLeastTwo
  split
  · rw [List.all_cons, hall]
    rfl
  · exact hall

/-- `%g` writes a number of JSON. -/
theorem gText_spec (n : Nat) : gText n ≠ [] ∧ (gText n).all Json.isNum = true := by
  unfold gText
  split
  · obtain ⟨hne, hall, -⟩ := decimal_spec n
    exact ⟨hne, all_isNum_of_isDigit hall⟩
  · dsimp only
    have hdigits : ∀ d ∈ (Nat.digits 10 (sixDigits n).1).dropWhile (· = 0), d < 10 := fun d hd =>
      Nat.digits_lt_base (by omega) ((List.dropWhile_suffix _).subset hd)
    refine ⟨by simp [Json.ascii], ?_⟩
    rw [List.all_append, List.all_append, all_isNum_mantissa (all_isDigit_digitText hdigits),
      all_isNum_of_isDigit (all_isDigit_atLeastTwo _)]
    decide

theorem head?_digitText (h : ∀ d ∈ ds, d < 10) (hlast : ds.getLast? ≠ some 0) :
    (digitText ds).head? ≠ some 48 := by
  rw [digitText, List.head?_map, List.head?_reverse]
  intro h48
  obtain ⟨d, hd, hd48⟩ := Option.map_eq_some_iff.mp h48
  have hlt := h d (List.mem_of_getLast? hd)
  have hnat := congrArg UInt8.toNat hd48
  rw [digit_toNat hlt] at hnat
  change 48 + d = 48 at hnat
  obtain rfl : d = 0 := by omega
  exact hlast hd

theorem getLast?_digits_ne_zero (n : Nat) : (Nat.digits 10 n).getLast? ≠ some 0 := by
  intro h
  by_cases hn : n = 0
  · subst hn
    cases h
  · rw [List.getLast?_eq_some_getLast (Nat.digits_ne_nil_iff_ne_zero.mpr hn)] at h
    exact Nat.getLast_digit_ne_zero 10 hn (Option.some.inj h)

/-- A decimal text is a number of JSON, with any sign. -/
theorem isUnsigned_decimal (n : Nat) : Json.isUnsigned (decimal n) = true := by
  obtain ⟨hne, hall, -⟩ := decimal_spec n
  obtain ⟨htake, hdrop⟩ := takeWhile_isDigit hall (t := []) (fun c hc => by cases hc)
  rw [List.append_nil] at htake hdrop
  rw [Json.isUnsigned, htake, hdrop]
  by_cases hn : n = 0
  · subst hn
    rfl
  · have hhead : (decimal n).head? ≠ some 48 := by
      rw [decimal, if_neg hn]
      exact head?_digitText (fun d hd => Nat.digits_lt_base (by omega) hd)
        (getLast?_digits_ne_zero n)
    simp [hne, hhead, Json.isFraction, Json.isExponent]

theorem isNumber_decimal (n : Nat) : Json.isNumber (decimal n) = true := by
  obtain ⟨hne, hall, -⟩ := decimal_spec n
  rw [Json.isNumber, if_neg (head?_ne_minus hne hall), isUnsigned_decimal]

/-- `%lld` writes a number of JSON. -/
theorem signed_spec (v : Int) :
    signed v ≠ [] ∧ (signed v).all Json.isNum = true ∧ Json.isNumber (signed v) = true := by
  obtain ⟨hne, hall, -⟩ := decimal_spec v.natAbs
  unfold signed
  split
  · refine ⟨List.cons_ne_nil _ _, ?_, ?_⟩
    · rw [List.all_cons, all_isNum_of_isDigit hall]
      rfl
    · rw [Json.isNumber, List.head?_cons, if_pos rfl, List.tail_cons, isUnsigned_decimal]
  · exact ⟨hne, all_isNum_of_isDigit hall, isNumber_decimal _⟩

theorem isExponent_plus (e : Nat) :
    Json.isExponent (Json.ascii "e+" ++ atLeastTwo e) = true := by
  have hne : atLeastTwo e ≠ [] := by
    unfold atLeastTwo
    split
    · exact List.cons_ne_nil _ _
    · exact (decimal_spec e).1
  have hascii : Json.ascii "e+" ++ atLeastTwo e = 101 :: 43 :: atLeastTwo e := rfl
  simp [hascii, Json.isExponent, Json.isDigits, hne, all_isDigit_atLeastTwo]

/-- A mantissa with an exponent is a number of JSON. -/
theorem isNumber_mantissa {c : UInt8} {cs : Text} (hall : (c :: cs).all isDigit = true)
    (hc : c ≠ 48) (e : Nat) :
    Json.isNumber (mantissa (c :: cs) ++ Json.ascii "e+" ++ atLeastTwo e) = true := by
  rw [List.all_cons, Bool.and_eq_true] at hall
  obtain ⟨hdigit, hcs⟩ := hall
  have hone : [c].all isDigit = true := by rw [List.all_cons, hdigit]; rfl
  have hminus : c ≠ 45 := by
    rintro rfl
    exact absurd hdigit (by decide)
  have hexp := not_isDigit_exponent e
  cases cs with
  | nil =>
      obtain ⟨htake, hdrop⟩ := takeWhile_isDigit hone hexp
      have hfraction : Json.isFraction (Json.ascii "e+" ++ atLeastTwo e) = true :=
        isExponent_plus e
      rw [mantissa, List.append_assoc, Json.isNumber, if_neg (by simpa using hminus),
        Json.isUnsigned, htake, hdrop, hfraction]
      simp [hc]
  | cons d ds =>
      have hpoint : ∀ x ∈ (46 :: (d :: ds) ++ (Json.ascii "e+" ++ atLeastTwo e)).head?,
          isDigit x = false := by
        intro x hx
        obtain rfl : 46 = x := Option.some.inj hx
        decide
      obtain ⟨htake, hdrop⟩ := takeWhile_isDigit hone hpoint
      obtain ⟨htake', hdrop'⟩ := takeWhile_isDigit hcs hexp
      have htext : mantissa (c :: d :: ds) ++ Json.ascii "e+" ++ atLeastTwo e =
          [c] ++ (46 :: (d :: ds) ++ (Json.ascii "e+" ++ atLeastTwo e)) := by
        rw [mantissa, List.append_assoc]
        · rfl
        · simp
      have hfraction : Json.isFraction (46 :: (d :: ds) ++ (Json.ascii "e+" ++ atLeastTwo e)) =
          true := by
        rw [Json.isFraction, List.cons_append, List.head?_cons, if_pos rfl, List.tail_cons, htake',
          hdrop', isExponent_plus]
        rfl
      rw [htext, Json.isNumber, if_neg (by simpa using hminus), Json.isUnsigned, htake, hdrop,
        hfraction]
      simp [hc]

theorem isNumber_gText (n : Nat) : Json.isNumber (gText n) = true := by
  unfold gText
  split
  · exact isNumber_decimal n
  rename_i hn
  obtain ⟨hlow, -⟩ := sixDigits_bounds (not_lt.mp hn)
  dsimp only
  generalize (sixDigits n).1 = q at hlow
  have hsuffix := List.dropWhile_suffix (l := Nat.digits 10 q) (· = 0)
  have hlt : ∀ d ∈ (Nat.digits 10 q).dropWhile (· = 0), d < 10 := fun d hd =>
    Nat.digits_lt_base (by omega) (hsuffix.subset hd)
  -- zeros are dropped at the low end, so the leading digit stays
  have hlast : ((Nat.digits 10 q).dropWhile (· = 0)).getLast? ≠ some 0 := by
    intro h0
    obtain ⟨pre, hpre⟩ := hsuffix
    refine getLast?_digits_ne_zero q ?_
    rw [← hpre, List.getLast?_append, h0]
    rfl
  have hall := all_isDigit_digitText hlt
  have hhead := head?_digitText hlt hlast
  have hne : (Nat.digits 10 q).dropWhile (· = 0) ≠ [] := by
    intro hnil
    have hzero := List.dropWhile_eq_nil_iff.mp hnil
    refine getLast?_digits_ne_zero q ?_
    have hq : Nat.digits 10 q ≠ [] := Nat.digits_ne_nil_iff_ne_zero.mpr (by omega)
    rw [List.getLast?_eq_some_getLast hq, of_decide_eq_true (hzero _ (List.getLast_mem hq))]
  cases ht : digitText ((Nat.digits 10 q).dropWhile (· = 0)) with
  | nil =>
      rw [digitText, List.map_eq_nil_iff, List.reverse_eq_nil_iff] at ht
      exact absurd ht hne
  | cons c cs =>
      rw [ht] at hall hhead
      exact isNumber_mantissa hall (fun hc => hhead (by rw [hc]; rfl)) _

/-! ### Doubles -/

/-- The bit pattern of a whole number below `2 ^ 53`. -/
def doubleBits (n : Nat) : Nat :=
  if n = 0 then 0
  else (1023 + Nat.log2 n) * 2 ^ 52 + (n * 2 ^ (52 - Nat.log2 n) - 2 ^ 52)

/-- The value of a bit pattern; none for the infinities and for what is not a number. -/
def doubleValue (b : Nat) : Option ℚ :=
  let sign : ℚ := if b / 2 ^ 63 % 2 = 1 then -1 else 1
  let e : Nat := b / 2 ^ 52 % 2 ^ 11
  let f : Nat := b % 2 ^ 52
  if e = 2 ^ 11 - 1 then none
  else if e = 0 then some (sign * f * (2 : ℚ) ^ (-1074 : Int))
  else some (sign * (2 ^ 52 + f : ℕ) * (2 : ℚ) ^ ((e : Int) - 1075))

/-- The pattern of a number that is not zero. -/
theorem doubleBits_spec (hpos : n ≠ 0) (h : n < 2 ^ 53) :
    ∃ e f, e ≤ 52 ∧ f < 2 ^ 52 ∧ doubleBits n = (1023 + e) * 2 ^ 52 + f ∧
      n * 2 ^ (52 - e) = 2 ^ 52 + f := by
  have hlow : 2 ^ Nat.log2 n ≤ n := Nat.log2_self_le hpos
  have hhigh : n < 2 ^ (Nat.log2 n + 1) := Nat.lt_log2_self
  have he : Nat.log2 n ≤ 52 := by
    have hlt : 2 ^ Nat.log2 n < 2 ^ 53 := hlow.trans_lt h
    have := (Nat.pow_lt_pow_iff_right (by omega)).mp hlt
    omega
  have hscaled : 2 ^ 52 ≤ n * 2 ^ (52 - Nat.log2 n) := by
    calc 2 ^ 52
      _ = 2 ^ Nat.log2 n * 2 ^ (52 - Nat.log2 n) := by
          rw [← Nat.pow_add, Nat.add_sub_cancel' he]
      _ ≤ n * 2 ^ (52 - Nat.log2 n) := Nat.mul_le_mul_right _ hlow
  have hbound : n * 2 ^ (52 - Nat.log2 n) < 2 ^ 53 := by
    calc n * 2 ^ (52 - Nat.log2 n)
      _ < 2 ^ (Nat.log2 n + 1) * 2 ^ (52 - Nat.log2 n) :=
          Nat.mul_lt_mul_of_pos_right hhigh (Nat.pow_pos (by omega))
      _ = 2 ^ 53 := by rw [← Nat.pow_add]; congr 1; omega
  refine ⟨Nat.log2 n, n * 2 ^ (52 - Nat.log2 n) - 2 ^ 52, he, by omega, ?_, by omega⟩
  rw [doubleBits, if_neg hpos]

theorem doubleBits_lt (h : n < 2 ^ 53) : doubleBits n < 2 ^ 64 := by
  by_cases hpos : n = 0
  · rw [doubleBits, if_pos hpos]
    decide
  · obtain ⟨e, f, he, hf, heq, -⟩ := doubleBits_spec hpos h
    omega

/-- **Whole numbers below `2 ^ 53` are doubles.** -/
theorem doubleValue_doubleBits (h : n < 2 ^ 53) :
    doubleValue (doubleBits n) = some (n : ℚ) := by
  by_cases hpos : n = 0
  · rw [hpos, doubleBits, if_pos rfl]
    norm_num [doubleValue]
  · obtain ⟨e, f, he, hf, heq, hvalue⟩ := doubleBits_spec hpos h
    have hsign : doubleBits n / 2 ^ 63 % 2 = 0 := by omega
    have hexp : doubleBits n / 2 ^ 52 % 2 ^ 11 = 1023 + e := by omega
    have hfrac : doubleBits n % 2 ^ 52 = f := by omega
    simp only [doubleValue, hsign, hexp, hfrac]
    rw [if_neg (by omega), if_neg (by omega), if_neg (by decide), ← hvalue]
    have hcast : ((1023 + e : ℕ) : Int) - 1075 = -((52 - e : ℕ) : Int) := by omega
    rw [hcast, zpow_neg, zpow_natCast]
    push_cast
    field_simp

end Number

import Mathlib

/-!
# Support — JSON

JSON texts and a parser for them.  Strings are byte strings; a number is kept as its text.  `render`
writes a value, and `renderSep` with white space behind commas and colons; `parse` reads either back
(`parse_render`, `parse_renderSep`).
-/

namespace Json

abbrev Text := List UInt8

/-- The bytes of an ASCII text. -/
def ascii (s : String) : Text := s.toList.map fun c => UInt8.ofNat c.toNat

/-- The characters that a number is made of. -/
def isNum (c : UInt8) : Bool := (48 ≤ c && c ≤ 57) || c ∈ ascii "+-.eE"

def isDigit (c : UInt8) : Bool := 48 ≤ c && c ≤ 57

/-- One digit or more. -/
def isDigits (t : Text) : Bool := t ≠ [] && t.all isDigit

/-- Nothing, or `e`, perhaps a sign, and digits. -/
def isExponent : Text → Bool
  | []     => true
  | e :: t =>
      (e = 101 || e = 69) && isDigits (if t.head? = some 43 ∨ t.head? = some 45 then t.tail else t)

/-- Perhaps a point and digits, and an exponent. -/
def isFraction (t : Text) : Bool :=
  if t.head? = some 46 then
    t.tail.takeWhile isDigit ≠ [] && isExponent (t.tail.dropWhile isDigit)
  else isExponent t

/-- A number without a sign; only zero starts with the digit zero. -/
def isUnsigned (t : Text) : Bool :=
  (t.takeWhile isDigit = [48] || (t.takeWhile isDigit ≠ [] && t.head? ≠ some 48)) &&
    isFraction (t.dropWhile isDigit)

/-- The grammar of numbers. -/
def isNumber (t : Text) : Bool := isUnsigned (if t.head? = some 45 then t.tail else t)

/-- The text of a number. -/
structure Num where
  text : Text
  nonempty : text ≠ []
  digits : text.all isNum = true
  grammar : isNumber text = true
  deriving DecidableEq, Repr

inductive Literal where
  | tt
  | ff
  | null
  deriving DecidableEq, Repr

def Literal.text : Literal → Text
  | .tt   => ascii "true"
  | .ff   => ascii "false"
  | .null => ascii "null"

/-- JSON values. -/
inductive Value where
  | str (s : Text)
  | num (n : Num)
  | lit (l : Literal)
  | arr (xs : List Value)
  | obj (kvs : List (Text × Value))

/-! ### Strings -/

def hexDigit (n : UInt8) : UInt8 := if n < 10 then 48 + n else 87 + n

/-- A byte inside a string: the quote, the backslash and the control characters are escaped. -/
def escape (c : UInt8) : Text :=
  if c = 34 ∨ c = 92 then [92, c]
  else if c = 10 then ascii "\\n"
  else if c = 13 then ascii "\\r"
  else if c = 9 then ascii "\\t"
  else if c < 32 then ascii "\\u00" ++ [hexDigit (c / 16), hexDigit (c % 16)]
  else [c]

/-- A string with its quotes. -/
def quote (s : Text) : Text := 34 :: (s.flatMap escape ++ [34])

/-- A hexadecimal digit, of either case. -/
def hexValue (c : UInt8) : Option Nat :=
  if 48 ≤ c ∧ c ≤ 57 then some (c.toNat - 48)
  else if 97 ≤ c ∧ c ≤ 102 then some (c.toNat - 87)
  else if 65 ≤ c ∧ c ≤ 70 then some (c.toNat - 55)
  else none

/-- The UTF-8 bytes of a code point below `0x10000`; none for a surrogate. -/
def utf8 (n : Nat) : Option Text :=
  if n < 0x80 then some [UInt8.ofNat n]
  else if n < 0x800 then some [UInt8.ofNat (0xc0 + n / 64), UInt8.ofNat (0x80 + n % 64)]
  else if 0xd800 ≤ n ∧ n < 0xe000 then none
  else some [UInt8.ofNat (0xe0 + n / 4096), UInt8.ofNat (0x80 + n / 64 % 64),
    UInt8.ofNat (0x80 + n % 64)]

/-- The bytes of an escape with four hexadecimal digits. -/
def unicode (a b c d : UInt8) : Option Text := do
  let a ← hexValue a
  let b ← hexValue b
  let c ← hexValue c
  let d ← hexValue d
  utf8 (((a * 16 + b) * 16 + c) * 16 + d)

/-- The byte of a short escape. -/
def unescape (c : UInt8) : Option UInt8 :=
  if c = 34 ∨ c = 92 ∨ c = 47 then some c
  else if c = 98 then some 8
  else if c = 102 then some 12
  else if c = 110 then some 10
  else if c = 114 then some 13
  else if c = 116 then some 9
  else none

/-- The rest of a string after its opening quote, and what follows it. -/
def string : Text → Option (Text × Text)
  | [] => none
  | 34 :: rest => some ([], rest)
  | 92 :: 117 :: a :: b :: c :: d :: rest => do
      let bs ← unicode a b c d
      let (s, rest) ← string rest
      some (bs ++ s, rest)
  | 92 :: c :: rest => do
      let b ← unescape c
      let (s, rest) ← string rest
      some (b :: s, rest)
  | c :: rest =>
      if c < 32 then none
      else do
        let (s, rest) ← string rest
        some (c :: s, rest)

/-! ### Values -/

/-- A number, as long as its characters go. -/
def number (cs : Text) : Option (Value × Text) :=
  if h : cs.takeWhile isNum ≠ [] ∧ isNumber (cs.takeWhile isNum) = true then
    some (.num ⟨cs.takeWhile isNum, h.1, List.all_takeWhile, h.2⟩, cs.dropWhile isNum)
  else none

/-- A literal, and what follows it. -/
def literal (cs : Text) : Option (Value × Text) :=
  ([.tt, .ff, .null] : List Literal).findSome? fun l =>
    if l.text.isPrefixOf cs then some (.lit l, cs.drop l.text.length) else none

def isWs (c : UInt8) : Bool := c = 32 || c = 9 || c = 10 || c = 13

/-- The text after white space. -/
def ws (cs : Text) : Text := cs.dropWhile isWs

/-- The text after the character `c`. -/
def expect (c : UInt8) (cs : Text) : Option Text :=
  if (ws cs).head? = some c then some (ws cs).tail else none

/-- After an element: the closing character, or a comma and more of them. -/
def next {α : Type} (close : UInt8) (more : Text → Option (List α × Text)) (x : α) (cs : Text) :
    Option (List α × Text) :=
  if (ws cs).head? = some close then some ([x], (ws cs).tail)
  else if (ws cs).head? = some 44 then (more (ws cs).tail).map fun (xs, rest) => (x :: xs, rest)
  else none

mutual
/-- A value, and what follows it. -/
def value : Nat → Text → Option (Value × Text)
  | 0, _ => none
  | fuel + 1, cs =>
      match ws cs with
      | [] => none
      | c :: cs =>
          if c = 34 then (string cs).map fun (s, rest) => (.str s, rest)
          else if c = 91 then
            if (ws cs).head? = some 93 then some (.arr [], (ws cs).tail)
            else (elems fuel cs).map fun (xs, rest) => (.arr xs, rest)
          else if c = 123 then
            if (ws cs).head? = some 125 then some (.obj [], (ws cs).tail)
            else (fields fuel cs).map fun (kvs, rest) => (.obj kvs, rest)
          else (literal (c :: cs)).orElse fun _ => number (c :: cs)

/-- The elements of an array that is not empty, up to its bracket. -/
def elems : Nat → Text → Option (List Value × Text)
  | 0, _ => none
  | fuel + 1, cs => do
      let (x, rest) ← value fuel cs
      next 93 (elems fuel) x rest

/-- The members of an object that is not empty, up to its brace. -/
def fields : Nat → Text → Option (List (Text × Value) × Text)
  | 0, _ => none
  | fuel + 1, cs => do
      let cs ← expect 34 cs
      let (k, rest) ← string cs
      let rest ← expect 58 rest
      let (x, rest) ← value fuel rest
      next 125 (fields fuel) (k, x) rest
end

/-- The value of a text. -/
def parse (text : Text) : Option Value :=
  match value (text.length + 1) text with
  | some (j, rest) => if ws rest = [] then some j else none
  | none => none

mutual
/-- The text of a value. -/
def render : Value → Text
  | .str s   => quote s
  | .num n   => n.text
  | .lit l   => l.text
  | .arr xs  => 91 :: (renderElems xs ++ [93])
  | .obj kvs => 123 :: (renderFields kvs ++ [125])

/-- Elements with commas between them. -/
def renderElems : List Value → Text
  | [] => []
  | [x] => render x
  | x :: y :: xs => render x ++ 44 :: renderElems (y :: xs)

/-- Members with commas between them. -/
def renderFields : List (Text × Value) → Text
  | [] => []
  | [(k, x)] => quote k ++ 58 :: render x
  | (k, x) :: y :: xs => quote k ++ 58 :: (render x ++ 44 :: renderFields (y :: xs))
end

mutual
/-- The text of a value, with `sep` behind commas and colons. -/
def renderSep (sep : Text) : Value → Text
  | .str s   => quote s
  | .num n   => n.text
  | .lit l   => l.text
  | .arr xs  => 91 :: (renderSepElems sep xs ++ [93])
  | .obj kvs => 123 :: (renderSepFields sep kvs ++ [125])

def renderSepElems (sep : Text) : List Value → Text
  | [] => []
  | [x] => renderSep sep x
  | x :: y :: xs => renderSep sep x ++ 44 :: (sep ++ renderSepElems sep (y :: xs))

def renderSepFields (sep : Text) : List (Text × Value) → Text
  | [] => []
  | [(k, x)] => quote k ++ 58 :: (sep ++ renderSep sep x)
  | (k, x) :: y :: xs =>
      quote k ++ 58 :: (sep ++ (renderSep sep x ++ 44 :: (sep ++ renderSepFields sep (y :: xs))))
end

/-! ### Reading back -/

variable {c : UInt8} {sep : Text}

theorem string_plain (hquote : c ≠ 34) (hslash : c ≠ 92) (hctl : ¬ c < 32) (rest : Text) :
    string (c :: rest) = (string rest).map fun (s, rest) => (c :: s, rest) := by
  rw [string.eq_def]
  split
  · simp_all
  · simp_all
  · simp_all
  · simp_all
  · rename_i heq
    obtain ⟨rfl, rfl⟩ := List.cons.inj heq
    rw [if_neg hctl]
    cases string rest <;> rfl

theorem string_short {b : UInt8} (hb : unescape c = some b) (rest : Text) :
    string (92 :: c :: rest) = (string rest).map fun (s, rest) => (b :: s, rest) := by
  have hu : c ≠ 117 := by
    rintro rfl
    cases hb
  rw [string.eq_def]
  split
  · simp_all
  · simp_all
  · simp_all
  · rename_i heq
    obtain ⟨-, heq⟩ := List.cons.inj heq
    obtain ⟨rfl, rfl⟩ := List.cons.inj heq
    rw [hb]
    cases string rest <;> rfl
  · rename_i hno heq
    obtain ⟨rfl, rfl⟩ := List.cons.inj heq
    exact absurd rfl (hno c rest rfl)

theorem unicode_hexDigit :
    ∀ c : UInt8, c < 32 → unicode 48 48 (hexDigit (c / 16)) (hexDigit (c % 16)) = some [c] := by
  decide +kernel

/-- **An escaped byte is read back.** -/
theorem string_escape (c : UInt8) (rest : Text) :
    string (escape c ++ rest) = (string rest).map fun (s, rest) => (c :: s, rest) := by
  unfold escape
  split
  · rename_i hc
    exact string_short (by unfold unescape; rcases hc with rfl | rfl <;> rfl) rest
  split
  · rename_i hc
    subst hc
    exact string_short rfl rest
  split
  · rename_i hc
    subst hc
    exact string_short rfl rest
  split
  · rename_i hc
    subst hc
    exact string_short rfl rest
  split
  · rename_i hc
    have hstring : string (92 :: 117 :: 48 :: 48 :: hexDigit (c / 16) :: hexDigit (c % 16) :: rest) =
        (string rest).map fun (s, rest) => (c :: s, rest) := by
      rw [string, unicode_hexDigit c hc]
      cases string rest <;> rfl
    exact hstring
  · rename_i hplain _ _ _ hctl
    exact string_plain (fun h => hplain (.inl h)) (fun h => hplain (.inr h)) hctl rest

/-- **A string is read back.** -/
theorem string_quote (s rest : Text) : string (s.flatMap escape ++ 34 :: rest) = some (s, rest) := by
  induction s with
  | nil => rfl
  | cons c s ih => rw [List.flatMap_cons, List.append_assoc, string_escape, ih, Option.map_some]

/-- What may follow a number. -/
def Stops (rest : Text) : Prop := ∀ c ∈ rest.head?, isNum c = false

theorem number_render (n : Num) {rest : Text} (hrest : Stops rest) :
    number (n.text ++ rest) = some (.num n, rest) := by
  have htake : (n.text ++ rest).takeWhile isNum = n.text ∧
      (n.text ++ rest).dropWhile isNum = rest := by
    have hall := List.all_eq_true.mp n.digits
    rw [List.takeWhile_append_of_pos hall, List.dropWhile_append_of_pos hall]
    cases rest with
    | nil => exact ⟨List.append_nil _, rfl⟩
    | cons c cs =>
        have hc : isNum c = false := hrest c rfl
        rw [List.takeWhile_cons_of_neg (by simp [hc]), List.dropWhile_cons_of_neg (by simp [hc])]
        exact ⟨List.append_nil _, rfl⟩
  unfold number
  rw [dif_pos (by rw [htake.1]; exact ⟨n.nonempty, n.grammar⟩)]
  simp only [htake]

theorem literal_render (l : Literal) (rest : Text) :
    literal (l.text ++ rest) = some (.lit l, rest) := by
  cases l <;> rfl

/-- No literal starts like a number. -/
theorem literal_of_isNum (h : isNum c = true) (cs : Text) : literal (c :: cs) = none := by
  have hne : c ≠ 116 ∧ c ≠ 102 ∧ c ≠ 110 := by
    refine ⟨?_, ?_, ?_⟩ <;> rintro rfl <;> exact absurd h (by decide)
  have htext : ∀ l : Literal, l.text.isPrefixOf (c :: cs) = false := by
    intro l
    cases l with
    | tt =>
        change ((116 : UInt8) == c && _) = false
        rw [beq_false_of_ne hne.1.symm, Bool.false_and]
    | ff =>
        change ((102 : UInt8) == c && _) = false
        rw [beq_false_of_ne hne.2.1.symm, Bool.false_and]
    | null =>
        change ((110 : UInt8) == c && _) = false
        rw [beq_false_of_ne hne.2.2.symm, Bool.false_and]
  simp [literal, htext]

/-! ### White space -/

theorem ws_cons (h : isWs c = false) (cs : Text) : ws (c :: cs) = c :: cs :=
  List.dropWhile_cons_of_neg (by rw [h]; decide)

theorem ws_append (h : sep.all isWs = true) (cs : Text) : ws (sep ++ cs) = ws cs :=
  List.dropWhile_append_of_pos (List.all_eq_true.mp h)

theorem value_ws (h : sep.all isWs = true) (fuel : Nat) (cs : Text) :
    value fuel (sep ++ cs) = value fuel cs := by
  cases fuel with
  | zero => rw [value, value]
  | succ fuel => rw [value, value, ws_append h]

theorem elems_ws (h : sep.all isWs = true) (fuel : Nat) (cs : Text) :
    elems fuel (sep ++ cs) = elems fuel cs := by
  cases fuel with
  | zero => rw [elems, elems]
  | succ fuel => rw [elems, elems, value_ws h]

theorem fields_ws (h : sep.all isWs = true) (fuel : Nat) (cs : Text) :
    fields fuel (sep ++ cs) = fields fuel cs := by
  cases fuel with
  | zero => rw [fields, fields]
  | succ fuel => rw [fields, fields, expect, expect, ws_append h]

theorem expect_cons (hc : isWs c = false) (rest : Text) :
    expect c (c :: rest) = some rest := by
  rw [expect, ws_cons hc, List.head?_cons, if_pos rfl, List.tail_cons]

theorem next_close {α : Type} {close : UInt8} (hclose : isWs close = false)
    (more : Text → Option (List α × Text)) (x : α) (rest : Text) :
    next close more x (close :: rest) = some ([x], rest) := by
  rw [next, ws_cons hclose, List.head?_cons, if_pos rfl, List.tail_cons]

theorem next_comma {α : Type} {close : UInt8} (hclose : close ≠ 44)
    {more : Text → Option (List α × Text)} (x : α) {cs rest : Text} {xs : List α}
    (hmore : more cs = some (xs, rest)) : next close more x (44 :: cs) = some (x :: xs, rest) := by
  rw [next, ws_cons (by decide), List.head?_cons, if_neg (by simpa using hclose.symm), if_pos rfl,
    List.tail_cons, hmore, Option.map_some]

/-! ### Values are read back -/

theorem stops_cons (h : isNum c = false) (rest : Text) : Stops (c :: rest) := by
  intro d hd
  obtain rfl := Option.some.inj hd
  exact h

section ReadsBack

/-- No value starts with white space or a closing bracket. -/
theorem renderSep_head (sep : Text) (j : Value) :
    ∃ c cs, renderSep sep j = c :: cs ∧ c ≠ 93 ∧ isWs c = false := by
  cases j with
  | str s => exact ⟨34, _, rfl, by decide⟩
  | arr xs => exact ⟨91, _, rfl, by decide⟩
  | obj kvs => exact ⟨123, _, rfl, by decide⟩
  | lit l => cases l <;> exact ⟨_, _, rfl, by decide⟩
  | num n =>
      obtain ⟨text, hne, hall, -⟩ := n
      cases text with
      | nil => exact absurd rfl hne
      | cons c cs =>
          have hplain : ∀ c : UInt8, isNum c = true → c ≠ 93 ∧ isWs c = false := by decide +kernel
          exact ⟨c, cs, rfl, hplain c (List.all_eq_true.mp hall _ List.mem_cons_self)⟩

theorem head?_renderSepElems (x : Value) (xs : List Value) (rest : Text) :
    (ws (renderSepElems sep (x :: xs) ++ rest)).head? ≠ some 93 := by
  obtain ⟨c, cs, hcons, hc, hws⟩ := renderSep_head sep x
  cases xs with
  | nil => simpa [renderSepElems, hcons, ws_cons hws] using hc
  | cons y ys => simpa [renderSepElems, hcons, ws_cons hws] using hc

theorem head?_renderSepFields (k : Text) (x : Value) (kvs : List (Text × Value)) (rest : Text) :
    (ws (renderSepFields sep ((k, x) :: kvs) ++ rest)).head? ≠ some 125 := by
  have hquote : isWs 34 = false := by decide
  cases kvs with
  | nil => simp [renderSepFields, quote, ws_cons hquote]
  | cons y ys => simp [renderSepFields, quote, ws_cons hquote]

/-- What is rendered within the fuel is read back. -/
structure ReadsBack (sep : Text) (fuel : Nat) : Prop where
  value : ∀ j {rest}, (renderSep sep j).length < fuel → Stops rest →
    value fuel (renderSep sep j ++ rest) = some (j, rest)
  elems : ∀ x xs {rest}, (renderSepElems sep (x :: xs)).length + 1 < fuel →
    elems fuel (renderSepElems sep (x :: xs) ++ 93 :: rest) = some (x :: xs, rest)
  fields : ∀ k x kvs {rest}, (renderSepFields sep ((k, x) :: kvs)).length + 1 < fuel →
    fields fuel (renderSepFields sep ((k, x) :: kvs) ++ 125 :: rest) = some ((k, x) :: kvs, rest)

variable {fuel : Nat} {rest : Text}

theorem ReadsBack.value_succ (ih : ReadsBack sep fuel) (j : Value)
    (hfuel : (renderSep sep j).length < fuel + 1) (hrest : Stops rest) :
    Json.value (fuel + 1) (renderSep sep j ++ rest) = some (j, rest) := by
  cases j with
  | str s =>
      rw [renderSep, quote, List.cons_append, List.append_assoc, List.singleton_append, Json.value,
        ws_cons (by decide)]
      dsimp only
      rw [if_pos rfl, string_quote, Option.map_some]
  | num n =>
      obtain ⟨c, cs, hcons, -, hws⟩ := renderSep_head sep (.num n)
      rw [renderSep] at hcons
      have hall := List.all_eq_true.mp n.digits c (hcons ▸ List.mem_cons_self)
      have hnum : c ≠ 34 ∧ c ≠ 91 ∧ c ≠ 123 := by
        refine ⟨?_, ?_, ?_⟩ <;> rintro rfl <;> exact absurd hall (by decide)
      have hread := number_render n hrest
      rw [hcons, List.cons_append] at hread
      rw [renderSep, hcons, List.cons_append, Json.value, ws_cons hws]
      dsimp only
      rw [if_neg hnum.1, if_neg hnum.2.1, if_neg hnum.2.2, literal_of_isNum hall,
        Option.orElse_none, hread]
  | lit l =>
      obtain ⟨c, cs, hcons, hc⟩ : ∃ c cs, l.text = c :: cs ∧ c ≠ 34 ∧ c ≠ 91 ∧ c ≠ 123 ∧
          isWs c = false := by
        cases l <;> exact ⟨_, _, rfl, by decide⟩
      have hread := literal_render l rest
      rw [hcons, List.cons_append] at hread
      rw [renderSep, hcons, List.cons_append, Json.value, ws_cons hc.2.2.2]
      dsimp only
      rw [if_neg hc.1, if_neg hc.2.1, if_neg hc.2.2.1, hread, Option.orElse_some]
  | arr xs =>
      cases xs with
      | nil => rfl
      | cons x xs =>
          rw [renderSep, List.length_cons, List.length_append, List.length_singleton] at hfuel
          rw [renderSep, List.cons_append, List.append_assoc, List.singleton_append, Json.value,
            ws_cons (by decide)]
          dsimp only
          rw [if_neg (by decide), if_pos rfl, if_neg (head?_renderSepElems x xs _),
            ih.elems x xs (by omega), Option.map_some]
  | obj kvs =>
      cases kvs with
      | nil => rfl
      | cons kv kvs =>
          obtain ⟨k, x⟩ := kv
          rw [renderSep, List.length_cons, List.length_append, List.length_singleton] at hfuel
          rw [renderSep, List.cons_append, List.append_assoc, List.singleton_append, Json.value,
            ws_cons (by decide)]
          dsimp only
          rw [if_neg (by decide), if_neg (by decide), if_pos rfl,
            if_neg (head?_renderSepFields k x kvs _), ih.fields k x kvs (by omega), Option.map_some]

theorem ReadsBack.elems_succ (hsep : sep.all isWs = true) (ih : ReadsBack sep fuel) (x : Value)
    (xs : List Value) (hfuel : (renderSepElems sep (x :: xs)).length + 1 < fuel + 1) :
    Json.elems (fuel + 1) (renderSepElems sep (x :: xs) ++ 93 :: rest) = some (x :: xs, rest) := by
  cases xs with
  | nil =>
      rw [renderSepElems] at hfuel ⊢
      rw [Json.elems, ih.value x (by omega) (stops_cons (by decide) rest)]
      exact next_close (show isWs 93 = false by decide) (Json.elems fuel) x rest
  | cons y ys =>
      rw [renderSepElems, List.length_append, List.length_cons, List.length_append] at hfuel
      rw [renderSepElems, List.append_assoc, List.cons_append, List.append_assoc, Json.elems,
        ih.value x (by omega) (stops_cons (by decide) _)]
      exact next_comma (show (93 : UInt8) ≠ 44 by decide) x
        ((elems_ws hsep fuel _).trans (ih.elems y ys (by omega)))

theorem ReadsBack.fields_succ (hsep : sep.all isWs = true) (ih : ReadsBack sep fuel) (k : Text)
    (x : Value) (kvs : List (Text × Value))
    (hfuel : (renderSepFields sep ((k, x) :: kvs)).length + 1 < fuel + 1) :
    Json.fields (fuel + 1) (renderSepFields sep ((k, x) :: kvs) ++ 125 :: rest) =
      some ((k, x) :: kvs, rest) := by
  have hmember {more : Text} (hlen : (renderSep sep x).length < fuel) (hmore : Stops more) :
      Json.fields (fuel + 1) (quote k ++ 58 :: (sep ++ (renderSep sep x ++ more))) =
        next 125 (Json.fields fuel) (k, x) more := by
    rw [Json.fields, quote, List.cons_append, expect_cons (by decide), Option.bind_eq_bind,
      Option.bind_some, List.append_assoc, List.singleton_append, string_quote,
      Option.bind_eq_bind, Option.bind_some]
    dsimp only
    rw [expect_cons (by decide), Option.bind_eq_bind, Option.bind_some, value_ws hsep,
      ih.value x hlen hmore]
    rfl
  cases kvs with
  | nil =>
      rw [renderSepFields, List.length_append, List.length_cons, List.length_append] at hfuel
      rw [renderSepFields, List.append_assoc, List.cons_append, List.append_assoc,
        hmember (by omega) (stops_cons (by decide) rest)]
      exact next_close (show isWs 125 = false by decide) (Json.fields fuel) (k, x) rest
  | cons kv ys =>
      obtain ⟨l, y⟩ := kv
      rw [renderSepFields, List.length_append, List.length_cons, List.length_append,
        List.length_append, List.length_cons, List.length_append] at hfuel
      rw [renderSepFields, List.append_assoc, List.cons_append, List.append_assoc,
        List.append_assoc, List.cons_append, List.append_assoc,
        hmember (by omega) (stops_cons (by decide) _)]
      exact next_comma (show (125 : UInt8) ≠ 44 by decide) (k, x)
        ((fields_ws hsep fuel _).trans (ih.fields l y ys (by omega)))

end ReadsBack

/-- **Everything is read back**, by induction on the fuel. -/
theorem readsBack (hsep : sep.all isWs = true) (fuel : Nat) : ReadsBack sep fuel := by
  induction fuel with
  | zero => exact ⟨fun _ _ h => by omega, fun _ _ _ h => by omega, fun _ _ _ _ h => by omega⟩
  | succ fuel ih => exact ⟨fun j _ => ih.value_succ j, fun x xs _ => ih.elems_succ hsep x xs,
      fun k x kvs _ => ih.fields_succ hsep k x kvs⟩

/-- **Parsing inverts rendering**, with any white space behind commas and colons. -/
theorem parse_renderSep (hsep : sep.all isWs = true) (j : Value) :
    parse (renderSep sep j) = some j := by
  have hstops : Stops [] := fun c hc => by cases hc
  have hvalue := (readsBack hsep ((renderSep sep j).length + 1)).value j (Nat.lt_succ_self _) hstops
  rw [List.append_nil] at hvalue
  rw [parse, hvalue]
  rfl

mutual
theorem render_eq_renderSep : ∀ j : Value, render j = renderSep [] j
  | .str s   => by rw [render, renderSep]
  | .num n   => by rw [render, renderSep]
  | .lit l   => by rw [render, renderSep]
  | .arr xs  => by rw [render, renderSep, renderElems_eq_renderSepElems xs]
  | .obj kvs => by rw [render, renderSep, renderFields_eq_renderSepFields kvs]

theorem renderElems_eq_renderSepElems : ∀ xs : List Value, renderElems xs = renderSepElems [] xs
  | [] => by rw [renderElems, renderSepElems]
  | [x] => by rw [renderElems, renderSepElems, render_eq_renderSep x]
  | x :: y :: xs => by
      rw [renderElems, renderSepElems, render_eq_renderSep x,
        renderElems_eq_renderSepElems (y :: xs), List.nil_append]

theorem renderFields_eq_renderSepFields :
    ∀ kvs : List (Text × Value), renderFields kvs = renderSepFields [] kvs
  | [] => by rw [renderFields, renderSepFields]
  | [(k, x)] => by rw [renderFields, renderSepFields, render_eq_renderSep x,
    List.nil_append]
  | (k, x) :: y :: xs => by
      rw [renderFields, renderSepFields, render_eq_renderSep x,
        renderFields_eq_renderSepFields (y :: xs), List.nil_append, List.nil_append]
end

/-- **Parsing inverts rendering.** -/
theorem parse_render (j : Value) : parse (render j) = some j := by
  rw [render_eq_renderSep]
  exact parse_renderSep rfl j

end Json

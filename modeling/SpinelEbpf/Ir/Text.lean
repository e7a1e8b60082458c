import Mathlib

/-!
# Ir — the text form

`parse_spinel_ir.rb` reads the compiler's analysis from a text file, a record a line, and writes it
back.  A string in it is percent-coded: `encode` first codes the percent signs and then the
separators; `decode` undoes the separators first and the percent signs last, in two substitutions
over the whole text.  In a coded string every percent sign starts a code, so the first substitution
leaves exactly what the first step of `encode` made (`unescape_separators`), and no decoded text is
taken for a code.

An array is its elements joined by bars behind their number.  Reading an array from a dumped file
gives its elements back (`arrays_survive`), the empty array and the empty string included: the
number tells them apart.
-/

namespace SpinelEbpf.Ir

/-- A Ruby string. -/
abbrev Text := List Char

/-! ### Percent coding -/

/-- `ENCODE_MAP` at the characters of the class `[ \n\r\t|]`. -/
def encodeSeparator : Char → Text
  | ' '  => ['%', '2', '0']
  | '\n' => ['%', '0', 'A']
  | '\r' => ['%', '0', 'D']
  | '\t' => ['%', '0', '9']
  | '|'  => ['%', '7', 'C']
  | c    => [c]

/-- `s.gsub("%", "%25")`. -/
def encodePercent (s : Text) : Text := s.flatMap fun c => if c = '%' then ['%', '2', '5'] else [c]

def encode (s : Text) : Text := (encodePercent s).flatMap encodeSeparator

/-- The letters of a code, in upper case. -/
def upcase : Char → Char
  | 'a' => 'A'
  | 'c' => 'C'
  | 'd' => 'D'
  | c   => c

/-- `DECODE_MAP` at the codes of `/%(?:20|0A|0D|09|7C)/i`. -/
def separatorCode (a b : Char) : Option Char :=
  match upcase a, upcase b with
  | '2', '0' => some ' '
  | '0', 'A' => some '\n'
  | '0', 'D' => some '\r'
  | '0', '9' => some '\t'
  | '7', 'C' => some '|'
  | _, _     => none

def percentCode (a b : Char) : Option Char := if a = '2' ∧ b = '5' then some '%' else none

/-- The code a text starts with. -/
def codeAt (code : Char → Char → Option Char) : Text → Option Char
  | a :: b :: _ => code a b
  | _ => none

/-- A `gsub` over codes of two characters behind a percent sign; `skip` characters belong to a code
that was replaced. -/
def unescape (code : Char → Char → Option Char) : (skip : Nat) → Text → Text
  | _, [] => []
  | skip + 1, _ :: s => unescape code skip s
  | 0, c :: s        =>
      match if c = '%' then codeAt code s else none with
      | some d => d :: unescape code 2 s
      | none   => c :: unescape code 0 s

def decode (s : Text) : Text := unescape percentCode 0 (unescape separatorCode 0 s)

/-! ### Records -/

inductive Tag
  | int | str | sa | ia | t | nm | nb | sn | st
  deriving DecidableEq, Repr

def Tag.text : Tag → Text
  | .int => "INT".toList
  | .str => "STR".toList
  | .sa  => "SA".toList
  | .ia  => "IA".toList
  | .t   => "T".toList
  | .nm  => "NM".toList
  | .nb  => "NB".toList
  | .sn  => "SN".toList
  | .st  => "ST".toList

/-- An instance variable, or the number of a node. -/
inductive Name
  | ivar (name : Option Text)
  | nid (n : Int)
  deriving DecidableEq, Repr

structure Record where
  tag : Tag
  name : Name
  count : Option Int
  payload : Option Text
  rawLine : Text
  deriving DecidableEq, Repr

structure IR where
  version : Text
  records : List Record
  deriving DecidableEq, Repr

def versionStamp : Text := "SPINEL-IR v1".toList

/-- Why a text is refused. -/
inductive Refusal
  | missingHeader
  | emptyTag (lineno : Nat)
  | unknownTag (lineno : Nat) (tag : Text)
  | notInteger (s : Option Text)
  | needsCount
  deriving DecidableEq, Repr

/-! ### Reading -/

/-- Ruby's `split` with limit `-1`: an empty string has no parts. -/
def split (sep : Char) (s : Text) : List Text := if s = [] then [] else s.splitOn sep

/-- A token and the rest; no rest without a space. -/
def split2 : Option Text → Option Text × Option Text
  | none   => (none, none)
  | some s =>
      match s.dropWhile (· ≠ ' ') with
      | []        => (some s, none)
      | _ :: rest => (some (s.takeWhile (· ≠ ' ')), some rest)

/-- The value of a digit, at least the base if it is none. -/
def digitValue (base : Nat) (c : Char) : Nat :=
  if c.isDigit then c.toNat - 48
  else if 'a' ≤ c.toLower ∧ c.toLower ≤ 'z' then c.toLower.toNat - 87
  else base

/-- The number `n` and more digits; single underscores may stand between digits. -/
def digitsIn (base : Nat) : (n : Nat) → (afterDigit : Bool) → Text → Option Nat
  | n, afterDigit, []     => if afterDigit then some n else none
  | n, afterDigit, c :: s =>
      if c = '_' then if afterDigit then digitsIn base n false s else none
      else if base ≤ digitValue base c then none
      else digitsIn base (base * n + digitValue base c) true s

/-- The base a number is written in, and its digits. -/
def radix : Text → Nat × Text
  | '0' :: c :: s =>
      if c.toLower = 'x' then (16, s)
      else if c.toLower = 'b' then (2, s)
      else if c.toLower = 'o' then (8, s)
      else if c.toLower = 'd' then (10, s)
      else (8, '0' :: c :: s)
  | s => (10, s)

/-- White space around a number. -/
def blank (c : Char) : Bool := c = ' ' || ('\t' ≤ c && c ≤ '\r')

/-- Ruby's `Integer()`. -/
def integer (s : Text) : Option Int :=
  match (s.dropWhile blank).rdropWhile blank with
  | '-' :: s => (digitsIn (radix s).1 0 false (radix s).2).map fun n => -(n : Int)
  | '+' :: s => (digitsIn (radix s).1 0 false (radix s).2).map Int.ofNat
  | s        => (digitsIn (radix s).1 0 false (radix s).2).map Int.ofNat

/-- `Integer()` of a token, which may be missing. -/
def integerOf (s : Option Text) : Except Refusal Int :=
  match s.bind integer with
  | none   => .error (.notInteger s)
  | some n => .ok n

/-- A record of an instance variable. -/
def ivarRecord (tag : Tag) (rest : Option Text) (default : Option Text) (line : Text) : Record :=
  let (name, payload) := split2 rest
  ⟨tag, .ivar name, none, payload.or default, line⟩

/-- A record of an array. -/
def arrayRecord (tag : Tag) (rest : Option Text) (line : Text) : Except Refusal Record := do
  let (name, afterName) := split2 rest
  let (countS, payload) := split2 afterName
  let count ← integerOf countS
  .ok ⟨tag, .ivar name, some count, payload.or (some []), line⟩

/-- A record of a node. -/
def nodeRecord (tag : Tag) (rest : Option Text) (default : Option Text) (line : Text) :
    Except Refusal Record := do
  let (nidS, payload) := split2 rest
  let nid ← integerOf nidS
  .ok ⟨tag, .nid nid, none, payload.or default, line⟩

def parseLine (line : Text) (lineno : Nat) : Except Refusal Record :=
  let (tag, rest) := split2 (some line)
  match tag with
  | none   => .error (.emptyTag lineno)
  | some t =>
      if t = [] then .error (.emptyTag lineno)
      else if t = Tag.int.text then .ok (ivarRecord .int rest none line)
      else if t = Tag.str.text then .ok (ivarRecord .str rest (some []) line)
      else if t = Tag.sa.text then arrayRecord .sa rest line
      else if t = Tag.ia.text then arrayRecord .ia rest line
      else if t = Tag.t.text then nodeRecord .t rest (some []) line
      else if t = Tag.nm.text then nodeRecord .nm rest (some []) line
      else if t = Tag.nb.text then nodeRecord .nb rest none line
      else if t = Tag.sn.text then nodeRecord .sn rest (some []) line
      else if t = Tag.st.text then nodeRecord .st rest (some []) line
      else .error (.unknownTag lineno t)

/-- The records of some lines, the first of them number `n`. -/
def parseLines : Nat → List Text → Except Refusal (List Record)
  | _, []      => .ok []
  | n, l :: ls => do
      let r ← parseLine l n
      let rs ← parseLines (n + 1) ls
      .ok (r :: rs)

/-- The lines of a text; a trailing newline ends the last one. -/
def linesOf (text : Text) : List Text :=
  let lines := split '\n' text
  if lines.getLast? = some [] then lines.dropLast else lines

def parse (text : Text) : Except Refusal IR :=
  match linesOf text with
  | [] => .error .missingHeader
  | version :: lines => (parseLines 2 lines).map fun rs => ⟨version, rs⟩

/-! ### Writing -/

def dump (ir : IR) : Text := ir.version ++ '\n' :: ir.records.flatMap fun r => r.rawLine ++ ['\n']

def joinStrs (arr : List Text) : Text := ['|'].intercalate (arr.map encode)

/-- An integer as it is interpolated. -/
def intText : Int → Text
  | .ofNat n   => Nat.toDigits 10 n
  | .negSucc n => '-' :: Nat.toDigits 10 (n + 1)

def Name.text : Name → Text
  | .ivar name => name.getD []
  | .nid n     => intText n

def buildRecord (tag : Tag) (name : Name) (payload : Text) (count : Option Int) :
    Except Refusal Record :=
  let words : Text := tag.text ++ ' ' :: name.text
  match tag, count with
  | .sa, none | .ia, none => .error .needsCount
  | .sa, some n | .ia, some n =>
      .ok ⟨tag, name, count, some payload, words ++ ' ' :: (intText n ++ ' ' :: payload)⟩
  | _, _ => .ok ⟨tag, name, count, some payload, words ++ ' ' :: payload⟩

/-! ### Reading an array -/

def splitStrsN (payload : Option Text) (count : Option Int) : List Text :=
  if count = some 0 then []
  else
    let parts := split '|' (payload.getD [])
    (parts ++ List.replicate ((count.getD 0).toNat - parts.length) []).map decode

/-- `IR#sa`. -/
def IR.sa (ir : IR) (ivar : Text) : Option (List Text) :=
  (ir.records.find? fun r => r.tag = .sa ∧ r.name = .ivar (some ivar)).map fun r =>
    splitStrsN r.payload r.count

/-! ### Decoding undoes encoding -/

/-- The code of one character. -/
def encodeChar (c : Char) : Text := if c = '%' then ['%', '2', '5'] else encodeSeparator c

theorem encode_eq_flatMap (s : Text) : encode s = s.flatMap encodeChar := by
  rw [encode, encodePercent, List.flatMap_assoc]
  refine List.flatMap_congr fun c _ => ?_
  rw [encodeChar]
  split
  · rfl
  · exact List.flatMap_singleton _ _

/-- A separator is coded; another character stands for itself. -/
theorem encodeSeparator_cases (c : Char) :
    c = ' ' ∨ c = '\n' ∨ c = '\r' ∨ c = '\t' ∨ c = '|' ∨ encodeSeparator c = [c] := by
  fun_cases encodeSeparator c <;> simp

variable {c : Char}

theorem unescape_cons_ne {code : Char → Char → Option Char} (hc : c ≠ '%') (s : Text) :
    unescape code 0 (c :: s) = c :: unescape code 0 s := by
  rw [unescape, if_neg hc]

/-- **The first substitution leaves what the first step of `encode` made**: it decodes the
separators and passes over the codes of percent signs. -/
theorem unescape_separators (s : Text) : unescape separatorCode 0 (encode s) = encodePercent s := by
  rw [encode_eq_flatMap, encodePercent]
  induction s with
  | nil => rfl
  | cons c s ih =>
      rw [List.flatMap_cons, List.flatMap_cons, encodeChar]
      by_cases hc : c = '%'
      · rw [if_pos hc, if_pos hc]
        change '%' :: '2' :: '5' :: unescape separatorCode 0 (s.flatMap encodeChar) = _
        rw [ih]
        rfl
      · rw [if_neg hc, if_neg hc, List.singleton_append, ← ih]
        rcases encodeSeparator_cases c with rfl | rfl | rfl | rfl | rfl | hself
        · rfl
        · rfl
        · rfl
        · rfl
        · rfl
        · rw [hself, List.singleton_append, unescape_cons_ne hc]

theorem unescape_percent (s : Text) : unescape percentCode 0 (encodePercent s) = s := by
  rw [encodePercent]
  induction s with
  | nil => rfl
  | cons c s ih =>
      rw [List.flatMap_cons]
      by_cases hc : c = '%'
      · rw [if_pos hc, hc]
        change '%' :: unescape percentCode 0 (s.flatMap _) = _
        rw [ih]
      · rw [if_neg hc, List.singleton_append, unescape_cons_ne hc, ih]

theorem decode_encode (s : Text) : decode (encode s) = s := by
  rw [decode, unescape_separators, unescape_percent]

/-! ### Separators -/

/-- A coded string holds no separator. -/
theorem notMem_encode (hc : c = ' ' ∨ c = '\n' ∨ c = '|') (s : Text) : c ∉ encode s := by
  intro hmem
  rw [encode_eq_flatMap, List.mem_flatMap] at hmem
  obtain ⟨d, -, hd⟩ := hmem
  rw [encodeChar] at hd
  split at hd
  · rcases hc with rfl | rfl | rfl <;> simp at hd
  · rcases encodeSeparator_cases d with rfl | rfl | rfl | rfl | rfl | hself
    iterate 5 rcases hc with rfl | rfl | rfl <;> simp [encodeSeparator] at hd
    rw [hself, List.mem_singleton] at hd
    subst hd
    rcases hc with rfl | rfl | rfl <;> simp [encodeSeparator] at hself

theorem encode_eq_nil_iff {s : Text} : encode s = [] ↔ s = [] := by
  constructor
  · intro h
    rw [← decode_encode s, h]
    rfl
  · rintro rfl
    rfl

theorem notMem_joinStrs (hc : c = ' ' ∨ c = '\n') (arr : List Text) :
    c ∉ joinStrs arr := by
  have hcode : ∀ e ∈ arr.map encode, c ∉ e := by
    intro e he
    obtain ⟨s, -, rfl⟩ := List.mem_map.mp he
    exact notMem_encode (by tauto) s
  have hbar : c ≠ '|' := by rcases hc with rfl | rfl <;> decide
  rw [joinStrs]
  generalize arr.map encode = es at hcode ⊢
  induction es with
  | nil => simp
  | cons e es ih =>
      have hrest := ih fun e he => hcode e (List.mem_cons_of_mem _ he)
      have hfirst := hcode e List.mem_cons_self
      by_cases hes : es = []
      · rw [hes, List.intercalate_singleton]
        exact hfirst
      · rw [List.intercalate_cons_of_ne_nil hes]
        simp [hfirst, hbar, hrest]

/-- Splitting a joined array gives its coded elements, but for the empty text. -/
theorem split_joinStrs {arr : List Text} (h : joinStrs arr ≠ []) :
    split '|' (joinStrs arr) = arr.map encode := by
  have hne : arr.map encode ≠ [] := by
    intro hnil
    rw [joinStrs, hnil] at h
    exact h rfl
  rw [split, if_neg h, joinStrs, List.splitOn_intercalate '|' ?_ hne]
  intro e he
  obtain ⟨s, -, rfl⟩ := List.mem_map.mp he
  exact notMem_encode (.inr (.inr rfl)) s

/-- An array whose joined text is empty has no element, or the empty string. -/
theorem joinStrs_eq_nil {arr : List Text} (h : joinStrs arr = []) : arr = [] ∨ arr = [[]] := by
  cases arr with
  | nil => exact .inl rfl
  | cons e es =>
      cases es with
      | nil =>
          rw [joinStrs, List.map_cons, List.map_nil, List.intercalate_singleton,
            encode_eq_nil_iff] at h
          exact .inr (by rw [h])
      | cons e' es =>
          rw [joinStrs, List.map_cons, List.map_cons, List.intercalate_cons_cons] at h
          simp at h

/-- **The number of elements and the joined text determine the array.** -/
theorem splitStrsN_joinStrs (arr : List Text) :
    splitStrsN (some (joinStrs arr)) (some (arr.length : Int)) = arr := by
  by_cases hnil : joinStrs arr = []
  · rcases joinStrs_eq_nil hnil with rfl | rfl
    · rfl
    · rfl
  · have hpos : arr ≠ [] := by
      rintro rfl
      exact hnil rfl
    have hcount : some (arr.length : Int) ≠ some 0 := by
      simpa using hpos
    rw [splitStrsN, if_neg hcount, Option.getD_some, Option.getD_some, split_joinStrs hnil]
    simp [decode_encode, Function.comp_def]

/-! ### Numbers -/

theorem isDigit_bounds (h : c.isDigit = true) : 48 ≤ c.toNat ∧ c.toNat ≤ 57 := by
  simpa [Char.isDigit, UInt32.le_iff_toNat_le] using h

theorem digitValue_of_isDigit (h : c.isDigit = true) : digitValue 10 c = c.toNat - 48 := by
  rw [digitValue, if_pos h]

theorem digitsIn_of_isDigit {s : Text} (hs : ∀ c ∈ s, c.isDigit = true) (n : Nat) (after : Bool)
    (h : s ≠ [] ∨ after = true) : digitsIn 10 n after s = some (Nat.ofDigitChars 10 s n) := by
  induction s generalizing n after with
  | nil =>
      have hafter : after = true := h.resolve_left fun hne => hne rfl
      rw [digitsIn, if_pos hafter, Nat.ofDigitChars_nil]
  | cons c s ih =>
      have hc := hs c List.mem_cons_self
      have hbounds := isDigit_bounds hc
      have hline : c ≠ '_' := by
        rintro rfl
        exact absurd hc (by decide)
      rw [digitsIn, if_neg hline, digitValue_of_isDigit hc, if_neg (by omega),
        ih (fun c hc => hs c (List.mem_cons_of_mem _ hc)) _ _ (.inr rfl), Nat.ofDigitChars_cons]
      rfl

/-- A positive number does not start with a zero. -/
theorem head?_toDigits {n : Nat} (hn : 0 < n) : (Nat.toDigits 10 n).head? ≠ some '0' := by
  induction n using Nat.strong_induction_on with
  | _ n ih =>
      rw [Nat.toDigits_eq_if (by decide)]
      split
      · rename_i hlt
        interval_cases n <;> decide
      · rename_i hge
        have hrest := ih (n / 10) (by omega) (by omega)
        rw [List.head?_append_of_ne_nil _ Nat.toDigits_ne_nil]
        exact hrest

theorem radix_toDigits (n : Nat) : radix (Nat.toDigits 10 n) = (10, Nat.toDigits 10 n) := by
  rcases Nat.eq_zero_or_pos n with rfl | hn
  · rfl
  · have hhead := head?_toDigits hn
    generalize Nat.toDigits 10 n = s at hhead ⊢
    fun_cases radix s
    iterate 5 exact absurd rfl hhead
    rfl

theorem integer_toDigits (n : Nat) : integer (Nat.toDigits 10 n) = some (n : Int) := by
  have hdigits : ∀ c ∈ Nat.toDigits 10 n, c.isDigit = true := fun c hc =>
    Nat.isDigit_of_mem_toDigits (by decide) (by decide) hc
  have hblank : ∀ c ∈ Nat.toDigits 10 n, ¬ blank c = true := by
    intro c hc hb
    have hbounds := isDigit_bounds (hdigits c hc)
    simp only [blank, Bool.or_eq_true, Bool.and_eq_true, decide_eq_true_eq, Char.le_def,
      UInt32.le_iff_toNat_le] at hb
    rcases hb with rfl | ⟨-, hle⟩
    · exact absurd hbounds.1 (by decide)
    · have hcr : c.toNat ≤ 13 := hle
      omega
  have hstrip : ((Nat.toDigits 10 n).dropWhile blank).rdropWhile blank = Nat.toDigits 10 n := by
    rw [List.dropWhile_eq_self_iff.mpr fun hl => hblank _ (List.getElem_mem hl),
      List.rdropWhile_eq_self_iff.mpr fun hl => hblank _ (List.getLast_mem hl)]
  rw [integer, hstrip]
  split
  · rename_i s heq
    exact absurd (hdigits '-' (heq ▸ List.mem_cons_self)) (by decide)
  · rename_i s heq
    exact absurd (hdigits '+' (heq ▸ List.mem_cons_self)) (by decide)
  · rw [radix_toDigits, digitsIn_of_isDigit hdigits 0 false (.inl Nat.toDigits_ne_nil),
      Nat.ofDigitChars_ten_toDigits]
    rfl

/-! ### Records -/

theorem split2_append {token : Text} (h : ' ' ∉ token) (rest : Text) :
    split2 (some (token ++ ' ' :: rest)) = (some token, some rest) := by
  have hall : ∀ c ∈ token, decide (c ≠ ' ') = true := fun c hc =>
    decide_eq_true fun heq => h (heq ▸ hc)
  rw [split2, List.dropWhile_append_of_pos hall, List.dropWhile_cons_of_neg (by decide),
    List.takeWhile_append_of_pos hall, List.takeWhile_cons_of_neg (by decide), List.append_nil]

theorem notMem_toDigits (hc : c.isDigit = false) (n : Nat) : c ∉ Nat.toDigits 10 n := by
  intro hmem
  have hdigit := Nat.isDigit_of_mem_toDigits (by decide) (by decide) hmem
  rw [hc] at hdigit
  cases hdigit

/-- The record of an array. -/
def saRecord (name : Text) (arr : List Text) : Record :=
  { tag := .sa, name := .ivar (some name), count := some arr.length, payload := some (joinStrs arr)
    rawLine := "SA".toList ++ ' ' :: (name ++ ' ' :: (Nat.toDigits 10 arr.length ++
      ' ' :: joinStrs arr)) }

theorem buildRecord_sa (name : Text) (arr : List Text) :
    buildRecord .sa (.ivar (some name)) (joinStrs arr) (some arr.length) =
      .ok (saRecord name arr) := by
  simp [buildRecord, saRecord, Name.text, Tag.text, intText]

/-- A record of an array is what its line reads as. -/
theorem parseLine_saRecord {name : Text} (hname : ' ' ∉ name) (arr : List Text) (lineno : Nat) :
    parseLine (saRecord name arr).rawLine lineno = .ok (saRecord name arr) := by
  have htag : ' ' ∉ "SA".toList := by decide
  have hcount : ' ' ∉ Nat.toDigits 10 arr.length := notMem_toDigits (by decide) _
  have hint : integerOf (some (Nat.toDigits 10 arr.length)) = .ok (arr.length : Int) := by
    rw [integerOf, Option.bind_some, integer_toDigits]
  have harray : arrayRecord .sa (some (name ++ ' ' :: (Nat.toDigits 10 arr.length ++
      ' ' :: joinStrs arr))) (saRecord name arr).rawLine = .ok (saRecord name arr) := by
    simp only [arrayRecord, split2_append hname, split2_append hcount, hint]
    rfl
  rw [parseLine]
  nth_rewrite 1 [saRecord]
  simp only [split2_append htag]
  exact harray

theorem notMem_rawLine {name : Text} (hname : '\n' ∉ name) (arr : List Text) :
    '\n' ∉ (saRecord name arr).rawLine := by
  have hcount : '\n' ∉ Nat.toDigits 10 arr.length := notMem_toDigits (by decide) _
  have hjoin := notMem_joinStrs (.inr rfl) arr
  simp [saRecord, hname, hcount, hjoin]

/-- The lines of a dumped file. -/
theorem linesOf_dump {ir : IR} (hversion : '\n' ∉ ir.version)
    (hlines : ∀ r ∈ ir.records, '\n' ∉ r.rawLine) :
    linesOf (dump ir) = ir.version :: ir.records.map Record.rawLine := by
  have hrecords : ∀ rs : List Record, (∀ r ∈ rs, '\n' ∉ r.rawLine) →
      (rs.flatMap fun r => r.rawLine ++ ['\n']).splitOn '\n' = rs.map Record.rawLine ++ [[]] := by
    intro rs
    induction rs with
    | nil => intro _; rw [List.flatMap_nil, List.splitOn_nil]; rfl
    | cons r rs ih =>
        intro h
        rw [List.flatMap_cons, List.append_assoc, List.singleton_append,
          List.splitOn_append_cons_self_of_not_mem (h r List.mem_cons_self),
          ih fun r hr => h r (List.mem_cons_of_mem _ hr)]
        rfl
  have hsplit : split '\n' (dump ir) = (ir.version :: ir.records.map Record.rawLine) ++ [[]] := by
    rw [split, dump, if_neg (by simp), List.splitOn_append_cons_self_of_not_mem hversion,
      hrecords _ hlines]
    rfl
  simp only [linesOf, hsplit, List.getLast?_concat, if_true, List.dropLast_concat]

theorem parseLines_rawLines {rs : List Record}
    (h : ∀ r ∈ rs, ∀ n, parseLine r.rawLine n = .ok r) (n : Nat) :
    parseLines n (rs.map Record.rawLine) = .ok rs := by
  induction rs generalizing n with
  | nil => rfl
  | cons r rs ih =>
      have hrest := ih (fun r hr => h r (List.mem_cons_of_mem _ hr)) (n + 1)
      rw [List.map_cons, parseLines, h r List.mem_cons_self n, hrest]
      rfl

/-- **A dumped file reads back**, if its lines are lines and each record is what its line reads
as. -/
theorem parse_dump {ir : IR} (hversion : '\n' ∉ ir.version)
    (hlines : ∀ r ∈ ir.records, '\n' ∉ r.rawLine)
    (hparse : ∀ r ∈ ir.records, ∀ n, parseLine r.rawLine n = .ok r) : parse (dump ir) = .ok ir := by
  rw [parse, linesOf_dump hversion hlines]
  simp only [parseLines_rawLines hparse, Except.map]

/-- Reading a file of arrays. -/
theorem sa_saRecords (arrays : List (Text × List Text)) (ivar : Text) :
    (IR.mk versionStamp (arrays.map fun a => saRecord a.1 a.2)).sa ivar = arrays.lookup ivar := by
  induction arrays with
  | nil => rfl
  | cons a arrays ih =>
      obtain ⟨name, arr⟩ := a
      rw [IR.sa] at ih ⊢
      by_cases hname : name = ivar
      · subst hname
        rw [List.map_cons, List.find?_cons_of_pos (by simp [saRecord]), List.lookup_cons_self]
        exact congrArg some (splitStrsN_joinStrs arr)
      · rw [List.map_cons, List.find?_cons_of_neg (by simp [saRecord, hname]), ih,
          List.lookup_cons, beq_false_of_ne (Ne.symm hname)]

theorem mapM_buildRecord (arrays : List (Text × List Text)) :
    (arrays.mapM fun a => buildRecord .sa (.ivar (some a.1)) (joinStrs a.2) (some a.2.length)) =
      .ok (arrays.map fun a => saRecord a.1 a.2) := by
  induction arrays with
  | nil => rfl
  | cons a arrays ih =>
      rw [List.mapM_cons, buildRecord_sa, ih]
      rfl

/-- A file of arrays whose names are single words. -/
theorem parse_dump_arrays {arrays : List (Text × List Text)}
    (hnames : ∀ a ∈ arrays, ' ' ∉ a.1 ∧ '\n' ∉ a.1) :
    parse (dump ⟨versionStamp, arrays.map fun a => saRecord a.1 a.2⟩) =
      .ok ⟨versionStamp, arrays.map fun a => saRecord a.1 a.2⟩ := by
  refine parse_dump (show '\n' ∉ versionStamp by decide) ?_ ?_
  · intro r hr
    obtain ⟨a, ha, rfl⟩ := List.mem_map.mp hr
    exact notMem_rawLine (hnames a ha).2 a.2
  · intro r hr n
    obtain ⟨a, ha, rfl⟩ := List.mem_map.mp hr
    exact parseLine_saRecord (hnames a ha).1 a.2 n

/-- **Arrays survive the text form.**  Decoding undoes encoding.  A record built from the joined
elements of an array and their number, dumped and parsed, reads as the array under its name, which
may be any word; and so do the arrays of a whole file, each name as the first array it was given. -/
theorem arrays_survive :
    (∀ s : Text, decode (encode s) = s) ∧
    (∀ (name : Text) (arr : List Text), ' ' ∉ name → '\n' ∉ name →
      ∃ r ir, buildRecord .sa (.ivar (some name)) (joinStrs arr) (some arr.length) = .ok r ∧
        parse (dump ⟨versionStamp, [r]⟩) = .ok ir ∧ ir.sa name = some arr) ∧
    (∀ arrays : List (Text × List Text), (∀ a ∈ arrays, ' ' ∉ a.1 ∧ '\n' ∉ a.1) →
      ∃ rs ir,
        (arrays.mapM fun a => buildRecord .sa (.ivar (some a.1)) (joinStrs a.2)
          (some a.2.length)) = .ok rs ∧
        parse (dump ⟨versionStamp, rs⟩) = .ok ir ∧ ∀ name, ir.sa name = arrays.lookup name) := by
  refine ⟨decode_encode, fun name arr hspace hline => ?_, fun arrays hnames => ?_⟩
  · have hone : ∀ a ∈ [(name, arr)], ' ' ∉ a.1 ∧ '\n' ∉ a.1 := by
      intro a ha
      cases List.mem_singleton.mp ha
      exact ⟨hspace, hline⟩
    have hparse := parse_dump_arrays hone
    have hsa := sa_saRecords [(name, arr)] name
    rw [List.map_singleton] at hparse hsa
    rw [List.lookup_cons_self] at hsa
    exact ⟨_, _, buildRecord_sa name arr, hparse, hsa⟩
  · exact ⟨_, _, mapM_buildRecord arrays, parse_dump_arrays hnames, sa_saRecords arrays⟩

/-- Two arrays that only their numbers tell apart, and one with every separator. -/
theorem arrays_survive_separators :
    ∃ rs ir, ([("@a".toList, []), ("@b".toList, [[]]), ("@c".toList, ["% |\n".toList, []])].mapM
        fun a : Text × List Text => buildRecord .sa (.ivar (some a.1)) (joinStrs a.2)
          (some a.2.length)) = .ok rs ∧
      parse (dump ⟨versionStamp, rs⟩) = .ok ir ∧ ∀ name, ir.sa name =
        [("@a".toList, []), ("@b".toList, [[]]), ("@c".toList, ["% |\n".toList, []])].lookup name :=
  arrays_survive.2.2 _ (by decide)

end SpinelEbpf.Ir

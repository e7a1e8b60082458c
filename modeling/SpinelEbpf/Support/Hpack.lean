import SpinelEbpf.Support.Wire

/-!
# Support — Header compression

The decoder of RFC 7541: a header block is a sequence of representations, each an indexed field, a
literal field (with incremental indexing, without indexing, or never indexed) or an update of the
dynamic table's size.  Integers start in the low bits of a byte and go on in groups of seven;
strings are raw or Huffman coded.  The static table and the Huffman code are parameters.

The one encoder here writes literal fields without indexing, with new names and raw strings
(`literal`).  A decoder reads any sequence of them back, from any state of its dynamic table, and
leaves the table alone (`decode_literals`).
-/

namespace Hpack
open Wire

/-- A header field: name and value. -/
abbrev Field := List UInt8 × List UInt8

/-! ### Decoder -/

/-- What a decoder is set up with. -/
structure Context where
  static : List Field
  huffman : List UInt8 → Option (List UInt8)
  /-- The largest size the dynamic table may be given. -/
  tableSize : Nat

/-- The dynamic table, newest entry first. -/
structure Table where
  entries : List Field
  limit : Nat

/-- The size of an entry. -/
def entrySize (f : Field) : Nat := f.1.length + f.2.length + 32

/-- The newest entries that fit in `limit`. -/
def fitting : Nat → List Field → List Field
  | _, []          => []
  | limit, f :: fs =>
      if entrySize f ≤ limit then f :: fitting (limit - entrySize f) fs else []

def Table.insert (t : Table) (f : Field) : Table :=
  { t with entries := fitting t.limit (f :: t.entries) }

def Table.resize (t : Table) (limit : Nat) : Table := ⟨fitting limit t.entries, limit⟩

/-- The entry at an index: the static table's come first, and there is none at zero. -/
def Context.lookup (ctx : Context) (t : Table) : Nat → Option Field
  | 0     => none
  | i + 1 => (ctx.static ++ t.entries)[i]?

/-- An integer that starts in the low `n` bits of `b`, and what follows it. -/
def readInt (n : Nat) (b : UInt8) (bs : List UInt8) : Option (Nat × List UInt8) :=
  let low := b.toNat % 2 ^ n
  if low < 2 ^ n - 1 then some (low, bs)
  else (readVarint bs).map fun (v, rest) => (2 ^ n - 1 + v, rest)

/-- A string: the top bit of its length says whether it is Huffman coded. -/
def Context.readString (ctx : Context) : List UInt8 → Option (List UInt8 × List UInt8)
  | []      => none
  | b :: bs => do
      let (len, rest) ← readInt 7 b bs
      if rest.length < len then none
      else if b < 128 then some (rest.take len, rest.drop len)
      else (ctx.huffman (rest.take len)).map fun s => (s, rest.drop len)

/-- A literal field whose name's index starts in the low `n` bits of `b`. -/
def Context.readLiteral (ctx : Context) (t : Table) (n : Nat) (b : UInt8) (bs : List UInt8) :
    Option (Field × List UInt8) := do
  let (i, rest) ← readInt n b bs
  let (name, rest) ←
    if i = 0 then ctx.readString rest else (ctx.lookup t i).map fun f => (f.1, rest)
  let (value, rest) ← ctx.readString rest
  some ((name, value), rest)

/-- One representation: the field it stands for, if any, and the table after it. -/
def Context.readRepresentation (ctx : Context) (t : Table) :
    List UInt8 → Option (Option Field × Table × List UInt8)
  | []      => none
  | b :: bs =>
      if 128 ≤ b then do
        let (i, rest) ← readInt 7 b bs
        let f ← ctx.lookup t i
        some (some f, t, rest)
      else if 64 ≤ b then do
        let (f, rest) ← ctx.readLiteral t 6 b bs
        some (some f, t.insert f, rest)
      else if 32 ≤ b then do
        let (limit, rest) ← readInt 5 b bs
        if limit ≤ ctx.tableSize then some (none, t.resize limit, rest) else none
      else do
        -- without indexing, and never indexed
        let (f, rest) ← ctx.readLiteral t 4 b bs
        some (some f, t, rest)

/-- A header block; every representation takes a byte. -/
def Context.decodeFields (ctx : Context) : Nat → Table → List UInt8 → Option (List Field × Table)
  | _, t, [] => some ([], t)
  | 0, _, _ :: _ => none
  | fuel + 1, t, b :: bs => do
      let (f, t, rest) ← ctx.readRepresentation t (b :: bs)
      let (fs, t) ← ctx.decodeFields fuel t rest
      some (f.toList ++ fs, t)

/-- The fields of a header block, and the dynamic table after it. -/
def Context.decode (ctx : Context) (t : Table) (bs : List UInt8) : Option (List Field × Table) :=
  ctx.decodeFields bs.length t bs

/-! ### Literal fields without indexing -/

/-- A length in the low seven bits of a byte, and the groups that follow it. -/
def lengthBytes (len : Nat) : List UInt8 :=
  if len < 127 then [UInt8.ofNat len] else 127 :: varint (len - 127)

/-- A raw string. -/
def rawString (s : List UInt8) : List UInt8 := lengthBytes s.length ++ s

/-- A literal field without indexing, with a new name. -/
def literal (f : Field) : List UInt8 := 0 :: (rawString f.1 ++ rawString f.2)

section

variable (ctx : Context) (t : Table)

theorem readString_rawString (s rest : List UInt8) :
    ctx.readString (rawString s ++ rest) = some (s, rest) := by
  rw [rawString, lengthBytes]
  split
  · rename_i hlen
    have hnat : (UInt8.ofNat s.length).toNat = s.length := by
      rw [UInt8.toNat_ofNat']
      omega
    have hraw : UInt8.ofNat s.length < 128 := by
      rw [UInt8.lt_iff_toNat_lt, hnat]
      exact hlen.trans (by decide)
    have hread : readInt 7 (UInt8.ofNat s.length) (s ++ rest) = some (s.length, s ++ rest) := by
      rw [readInt, hnat, Nat.mod_eq_of_lt (by omega), if_pos (by omega)]
    rw [List.singleton_append, List.cons_append, Context.readString, hread]
    simp [hraw]
  · rename_i hlen
    have hread : readInt 7 127 (varint (s.length - 127) ++ (s ++ rest)) =
        some (s.length, s ++ rest) := by
      have hsum : 2 ^ 7 - 1 + (s.length - 127) = s.length := by omega
      rw [readInt, if_neg (by decide), readVarint_varint]
      simp only [Option.map_some, hsum]
    rw [List.cons_append, List.cons_append, List.append_assoc, Context.readString, hread]
    simp [show (127 : UInt8) < 128 by decide]

theorem readRepresentation_literal (f : Field) (rest : List UInt8) :
    ctx.readRepresentation t (literal f ++ rest) = some (some f, t, rest) := by
  have hread : readInt 4 0 (rawString f.1 ++ (rawString f.2 ++ rest)) =
      some (0, rawString f.1 ++ (rawString f.2 ++ rest)) := rfl
  rw [literal, List.cons_append, List.append_assoc, Context.readRepresentation,
    if_neg (by decide), if_neg (by decide), if_neg (by decide), Context.readLiteral, hread]
  simp [readString_rawString]

/-- **A decoder reads literal fields back**, whatever its tables hold. -/
theorem decode_literals (fields : List Field) :
    ctx.decode t (fields.flatMap literal) = some (fields, t) := by
  have hfuel : ∀ (fields : List Field) (fuel : Nat), fields.length ≤ fuel →
      ctx.decodeFields fuel t (fields.flatMap literal) = some (fields, t) := by
    intro fields
    induction fields with
    | nil => intro fuel _; cases fuel <;> rfl
    | cons f fields ih =>
        intro fuel hle
        obtain ⟨fuel, rfl⟩ : ∃ k, fuel = k + 1 := ⟨fuel - 1, by rw [List.length_cons] at hle; omega⟩
        have hrest := ih fuel (Nat.le_of_succ_le_succ hle)
        have hone := readRepresentation_literal ctx t f (fields.flatMap literal)
        rw [List.flatMap_cons]
        rw [literal, List.cons_append] at hone ⊢
        rw [Context.decodeFields, hone]
        simp [hrest]
  refine hfuel fields _ ?_
  induction fields with
  | nil => exact Nat.zero_le _
  | cons f fields ih =>
      rw [List.flatMap_cons, List.length_append, literal, List.length_cons, List.length_cons]
      omega

end

end Hpack

import SpinelEbpf.Support.Bytes

/-!
# Support — The protocol buffers wire format

A message is a list of numbered items: variable-length integers, 64-bit words and byte strings, the
last of which also carry nested messages.  `encode` writes the items in order and `decode` reads
them back (`decode_encode`).  Groups and 32-bit words are left out.
-/

namespace Wire
open Bytes

/-- Seven bits a byte, the lowest first; the top bit says that more follow. -/
def varint (n : Nat) : List UInt8 :=
  if n < 128 then [UInt8.ofNat n] else UInt8.ofNat (n % 128 + 128) :: varint (n / 128)

/-- A variable-length integer, and what follows it. -/
def readVarint : List UInt8 → Option (Nat × List UInt8)
  | [] => none
  | b :: bs =>
      if b < 128 then some (b.toNat, bs)
      else (readVarint bs).map fun (n, rest) => (b.toNat - 128 + 128 * n, rest)

/-- What a field may hold. -/
inductive Item where
  | varint (n : Nat)
  | fixed64 (v : UInt64)
  | bytes (bs : List UInt8)
  deriving DecidableEq, Repr

/-- The fields of a message with their numbers. -/
abbrev Message := List (Nat × Item)

def Item.wireType : Item → Nat
  | .varint _  => 0
  | .fixed64 _ => 1
  | .bytes _   => 2

def Item.payload : Item → List UInt8
  | .varint n  => Wire.varint n
  | .fixed64 v => le 8 v.toNat
  | .bytes bs  => Wire.varint bs.length ++ bs

/-- A field: its tag, and its payload. -/
def encodeField (f : Nat × Item) : List UInt8 := varint (8 * f.1 + f.2.wireType) ++ f.2.payload

/-- The bytes of a message. -/
def encode (m : Message) : List UInt8 := m.flatMap encodeField

/-- A payload of the given type, and what follows it. -/
def readPayload (wireType : Nat) (bs : List UInt8) : Option (Item × List UInt8) :=
  if wireType = 0 then (readVarint bs).map fun (n, rest) => (.varint n, rest)
  else if wireType = 1 then
    if 8 ≤ bs.length then some (.fixed64 (UInt64.ofNat (ofLe (bs.take 8))), bs.drop 8) else none
  else if wireType = 2 then do
    let (n, rest) ← readVarint bs
    if n ≤ rest.length then some (.bytes (rest.take n), rest.drop n) else none
  else none

/-- The loop of `decode`. -/
def readFields : Nat → List UInt8 → Option Message
  | 0, bs => if bs = [] then some [] else none
  | fuel + 1, bs =>
      if bs = [] then some []
      else do
        let (tag, rest) ← readVarint bs
        let (item, rest) ← readPayload (tag % 8) rest
        let more ← readFields fuel rest
        some ((tag / 8, item) :: more)

/-- The message of some bytes. -/
def decode (bs : List UInt8) : Option Message := readFields bs.length bs

/-! ### Reading back -/

theorem varint_ne_nil (n : Nat) : varint n ≠ [] := by
  rw [varint]
  split <;> exact List.cons_ne_nil _ _

theorem readVarint_varint (n : Nat) (rest : List UInt8) :
    readVarint (varint n ++ rest) = some (n, rest) := by
  induction n using Nat.strongRecOn with
  | _ n ih =>
  rw [varint]
  split
  · rename_i hlt
    have hnat : (UInt8.ofNat n).toNat = n := by
      rw [UInt8.toNat_ofNat']
      omega
    have hsmall : UInt8.ofNat n < 128 := UInt8.lt_iff_toNat_lt.mpr (by rw [hnat]; exact hlt)
    rw [List.singleton_append, readVarint, if_pos hsmall, hnat]
  · rename_i hge
    have hnat : (UInt8.ofNat (n % 128 + 128)).toNat = n % 128 + 128 := by
      rw [UInt8.toNat_ofNat']
      omega
    have hlarge : ¬ UInt8.ofNat (n % 128 + 128) < 128 := by
      rw [UInt8.lt_iff_toNat_lt, hnat]
      exact not_lt.mpr (Nat.le_add_left _ _)
    rw [List.cons_append, readVarint, if_neg hlarge, ih (n / 128) (by omega), Option.map_some, hnat]
    have hsum : n % 128 + 128 - 128 + 128 * (n / 128) = n := by omega
    dsimp only
    rw [hsum]

theorem Item.wireType_lt (item : Item) : item.wireType < 8 := by
  cases item <;> simp [Item.wireType]

theorem readPayload_payload (item : Item) (rest : List UInt8) :
    readPayload item.wireType (item.payload ++ rest) = some (item, rest) := by
  cases item with
  | varint n =>
      rw [Item.wireType, Item.payload, readPayload, if_pos rfl, readVarint_varint, Option.map_some]
  | fixed64 v =>
      have hlen : (le 8 v.toNat).length = 8 := length_le 8 v.toNat
      rw [Item.wireType, Item.payload, readPayload, if_neg (by decide), if_pos rfl,
        if_pos (by rw [List.length_append, hlen]; omega), List.take_left' hlen,
        List.drop_left' hlen, ofLe_le v.toNat_lt, UInt64.ofNat_toNat]
  | bytes bs =>
      rw [Item.wireType, Item.payload, readPayload, if_neg (by decide), if_neg (by decide),
        if_pos rfl, List.append_assoc, readVarint_varint, Option.bind_eq_bind, Option.bind_some]
      dsimp only
      rw [if_pos (by rw [List.length_append]; omega), List.take_left, List.drop_left]

theorem readFields_encode (m : Message) {fuel : Nat} (hfuel : m.length ≤ fuel) :
    readFields fuel (encode m) = some m := by
  induction m generalizing fuel with
  | nil => cases fuel <;> rfl
  | cons f m ih =>
      obtain ⟨fuel, rfl⟩ : ∃ k, fuel = k + 1 := ⟨fuel - 1, by rw [List.length_cons] at hfuel; omega⟩
      have htag : (8 * f.1 + f.2.wireType) % 8 = f.2.wireType ∧
          (8 * f.1 + f.2.wireType) / 8 = f.1 := by
        have hlt := f.2.wireType_lt
        omega
      have hne : encode (f :: m) ≠ [] := by
        rw [encode, List.flatMap_cons, encodeField]
        simp [varint_ne_nil]
      rw [readFields, if_neg hne, encode, List.flatMap_cons, encodeField, List.append_assoc,
        readVarint_varint, Option.bind_eq_bind, Option.bind_some]
      dsimp only
      rw [htag.1, htag.2, readPayload_payload, Option.bind_eq_bind, Option.bind_some]
      dsimp only
      rw [← encode, ih (Nat.le_of_succ_le_succ hfuel)]
      rfl

/-- A field takes a byte at least. -/
theorem length_le_length_encode (m : Message) : m.length ≤ (encode m).length := by
  induction m with
  | nil => exact Nat.le_refl 0
  | cons f m ih =>
      have hpos := List.length_pos_of_ne_nil (varint_ne_nil (8 * f.1 + f.2.wireType))
      rw [encode] at ih ⊢
      rw [List.flatMap_cons, List.length_append, List.length_cons, encodeField, List.length_append]
      omega

/-- **Decoding inverts encoding.** -/
theorem decode_encode (m : Message) : decode (encode m) = some m :=
  readFields_encode m (length_le_length_encode m)

end Wire

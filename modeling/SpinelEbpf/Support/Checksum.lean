import Mathlib

/-!
# Support — the ones' complement checksum

The ones' complement sum of a byte string adds its 16-bit words, an odd last byte taken with a
zero after it, and brings every carry out of the top back in at the bottom.  A string carries a
correct checksum when the sum is `0xFFFF`.

`onesSum` is that sum over words in network order.  A machine that adds words in its own, little
endian, order gets `leSum` before folding; the two agree up to the factor `256`, whose square is
`1` modulo `65535`, so either order decides the same thing (`onesSum_eq_iff`).  `leSum` is
additive, and storing a word where there was none adds the word (`leSum_segment_word`).
-/

namespace Checksum

/-- Ones' complement addition of two 16-bit words. -/
def addWord (a b : Nat) : Nat := (a + b) % 65536 + (a + b) / 65536

/-- The ones' complement sum of the words of a string, most significant byte first. -/
def onesSum : List (BitVec 8) → Nat
  | [] => 0
  | [a] => 256 * a.toNat
  | a :: b :: rest => addWord (256 * a.toNat + b.toNat) (onesSum rest)

/-- The plain sum of the words of a string, least significant byte first. -/
def leSum : List (BitVec 8) → Nat
  | [] => 0
  | [a] => a.toNat
  | a :: b :: rest => a.toNat + 256 * b.toNat + leSum rest

@[simp] theorem leSum_nil : leSum [] = 0 := rfl

@[simp] theorem leSum_single (a : BitVec 8) : leSum [a] = a.toNat := rfl

@[simp] theorem leSum_cons_cons (a b : BitVec 8) (l : List (BitVec 8)) :
    leSum (a :: b :: l) = a.toNat + 256 * b.toNat + leSum l := rfl

/-! ### The two orders -/

theorem onesSum_le : ∀ l, onesSum l ≤ 65535
  | [] => Nat.zero_le _
  | [a] => by
      have := a.isLt
      simp only [onesSum]
      omega
  | a :: b :: rest => by
      have := onesSum_le rest
      have := a.isLt
      have := b.isLt
      simp only [onesSum, addWord]
      omega

/-- Folding keeps the residue, and a little endian word is a big endian one times `256`. -/
theorem onesSum_residue : ∀ l, 256 * onesSum l % 65535 = leSum l % 65535
  | [] => rfl
  | [a] => by
      simp only [onesSum, leSum]
      omega
  | a :: b :: rest => by
      have := onesSum_residue rest
      simp only [onesSum, leSum, addWord]
      omega

theorem onesSum_eq_zero : ∀ l, onesSum l = 0 ↔ leSum l = 0
  | [] => by simp [onesSum]
  | [a] => by simp [onesSum]
  | a :: b :: rest => by
      have := onesSum_eq_zero rest
      simp only [onesSum, leSum, addWord]
      omega

/-- **The two orders decide alike.**  The ones' complement sum is `0xFFFF` exactly when the
little endian sum is a positive multiple of `65535`. -/
theorem onesSum_eq_iff (l : List (BitVec 8)) :
    onesSum l = 65535 ↔ 0 < leSum l ∧ leSum l % 65535 = 0 := by
  have hle := onesSum_le l
  have hres := onesSum_residue l
  have hzero := onesSum_eq_zero l
  omega

/-! ### Strings read from a memory -/

/-- The `n` bytes of `m` from `start` on. -/
def segment (m : Nat → BitVec 8) (start n : Nat) : List (BitVec 8) :=
  (List.range n).map fun i => m (start + i)

@[simp] theorem length_segment (m : Nat → BitVec 8) (start n : Nat) :
    (segment m start n).length = n := by
  simp [segment]

theorem segment_add (m : Nat → BitVec 8) (start i n : Nat) :
    segment m start (i + n) = segment m start i ++ segment m (start + i) n := by
  simp [segment, List.range_add, Nat.add_assoc]

theorem segment_congr {m m' : Nat → BitVec 8} {start n : Nat}
    (h : ∀ a, start ≤ a → a < start + n → m a = m' a) :
    segment m start n = segment m' start n := by
  refine List.map_congr_left fun i hi => h _ (Nat.le_add_right _ _) ?_
  have := List.mem_range.mp hi
  omega

theorem leSum_append : ∀ {l l' : List (BitVec 8)}, l.length % 2 = 0 →
    leSum (l ++ l') = leSum l + leSum l'
  | [], _, _ => by simp
  | [_], _, h => by simp at h
  | a :: b :: rest, l', h => by
      have hrest : rest.length % 2 = 0 := by
        simp only [List.length_cons] at h
        omega
      simp only [List.cons_append, leSum_cons_cons, leSum_append hrest]
      omega

/-- A segment's sum, cut out around the word at the even offset `i`. -/
theorem leSum_segment_cut (m : Nat → BitVec 8) (start : Nat) {i n : Nat} (hi : i % 2 = 0) :
    leSum (segment m start (i + (2 + n))) =
      leSum (segment m start i) +
        ((m (start + i)).toNat + 256 * (m (start + i + 1)).toNat +
          leSum (segment m (start + i + 2) n)) := by
  rw [segment_add, leSum_append (by simpa using hi), segment_add, leSum_append (by simp)]
  simp [segment, List.range_succ]

/-- **Storing a checksum.**  If `m'` is `m` but for the word at the even offset `i`, which is zero
in `m`, then the sum grows by that word. -/
theorem leSum_segment_word {m m' : Nat → BitVec 8} {start i n : Nat} (hi : i % 2 = 0)
    (hlt : i + 2 ≤ n) (hlo : m (start + i) = 0) (hhi : m (start + i + 1) = 0)
    (hsame : ∀ a, a ≠ start + i → a ≠ start + i + 1 → m' a = m a) :
    leSum (segment m' start n) =
      leSum (segment m start n) +
        ((m' (start + i)).toNat + 256 * (m' (start + i + 1)).toNat) := by
  obtain ⟨k, rfl⟩ : ∃ k, n = i + (2 + k) := ⟨n - i - 2, by omega⟩
  have hbefore : segment m' start i = segment m start i :=
    segment_congr fun a _ ha => hsame a (by omega) (by omega)
  have hafter : segment m' (start + i + 2) k = segment m (start + i + 2) k :=
    segment_congr fun a ha _ => hsame a (by omega) (by omega)
  rw [leSum_segment_cut m' start hi, leSum_segment_cut m start hi, hbefore, hafter, hlo, hhi]
  simp
  omega

end Checksum

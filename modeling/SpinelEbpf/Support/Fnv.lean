import Mathlib

/-!
# Support — FNV-1a

The 64-bit FNV-1a hash folds a step over the bytes: xor, then a multiplication by an odd number.
Either is a bijection of the state, so the step is injective in the state and in the byte
(`step_left_injective`, `step_right_injective`), and two strings that differ in one byte have
different hashes (`hash_set_ne`).
-/

namespace Fnv

/-- The offset basis. -/
def basis : UInt64 := 1469598103934665603

/-- The prime. -/
def prime : UInt64 := 1099511628211

/-- The inverse of the prime modulo `2 ^ 64`. -/
def primeInv : UInt64 := 14886173955864302971

/-- One byte. -/
def step (h : UInt64) (b : UInt8) : UInt64 := (h ^^^ b.toUInt64) * prime

/-- The hash of a string. -/
def hash (bs : List UInt8) : UInt64 := bs.foldl step basis

theorem mul_prime_injective : Function.Injective fun x : UInt64 => x * prime := by
  have hinv : Function.LeftInverse (fun x : UInt64 => x * primeInv) fun x => x * prime := by
    intro x
    dsimp only
    rw [UInt64.mul_assoc, show prime * primeInv = 1 by decide, UInt64.mul_one]
  exact hinv.injective

theorem step_left_injective (b : UInt8) : Function.Injective fun h => step h b := by
  intro h h' heq
  have hxor : h ^^^ b.toUInt64 = h' ^^^ b.toUInt64 := mul_prime_injective heq
  have hcancel (x : UInt64) : x ^^^ b.toUInt64 ^^^ b.toUInt64 = x := by
    rw [UInt64.xor_assoc, UInt64.xor_self, UInt64.xor_zero]
  rw [← hcancel h, hxor, hcancel]

theorem step_right_injective (h : UInt64) : Function.Injective (step h) := by
  intro b b' heq
  have hxor : h ^^^ b.toUInt64 = h ^^^ b'.toUInt64 := mul_prime_injective heq
  have hcancel (x : UInt64) : h ^^^ (h ^^^ x) = x := by
    rw [← UInt64.xor_assoc, UInt64.xor_self, UInt64.zero_xor]
  have hbyte : b.toUInt64 = b'.toUInt64 := by rw [← hcancel b.toUInt64, hxor, hcancel]
  have hnat := congrArg UInt64.toNat hbyte
  rw [UInt8.toNat_toUInt64, UInt8.toNat_toUInt64] at hnat
  exact UInt8.toNat.inj hnat

/-- The rest of a string keeps different states apart. -/
theorem foldl_step_injective (bs : List UInt8) : Function.Injective fun h => bs.foldl step h := by
  induction bs with
  | nil => exact Function.injective_id
  | cons b bs ih =>
      intro h h' heq
      exact step_left_injective b (ih heq)

/-- **One changed byte changes the hash.** -/
theorem hash_set_ne {bs : List UInt8} {k : Nat} (hk : k < bs.length) {v : UInt8} (hv : v ≠ bs[k]) :
    hash (bs.set k v) ≠ hash bs := by
  have hcut : hash (bs.take k ++ bs[k] :: bs.drop (k + 1)) = hash bs := by
    rw [← List.drop_eq_getElem_cons hk, List.take_append_drop]
  have hset : bs.set k v = bs.take k ++ v :: bs.drop (k + 1) := by
    rw [List.set_eq_take_append_cons_drop, if_pos hk]
  intro heq
  rw [hset, ← hcut, hash, hash, List.foldl_append, List.foldl_cons, List.foldl_append,
    List.foldl_cons] at heq
  exact hv (step_right_injective _ (foldl_step_injective _ heq))

end Fnv

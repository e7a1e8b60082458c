import Mathlib

/-!
# Support — Mixing words

Three ways to scramble a machine word that lose nothing: the exclusive or with its own right shift
(`xorShift_injective`), the product with an odd number (`mul_odd_injective`), and the walk by
an odd stride, which visits every word before it repeats one (`stride_injOn`).  A generator put
together from them draws distinct words.
-/

namespace Mixing

variable {w : Nat}

/-- The bits of a word are recovered from the top: bit `i` is that of the scrambled word, once bit
`i + k` is known. -/
theorem xorShift_injective {k : Nat} (hk : 0 < k) :
    Function.Injective fun z : BitVec w => z ^^^ (z >>> k) := by
  intro z z' h
  have hbit (i : Nat) (hup : z.getLsbD (k + i) = z'.getLsbD (k + i)) :
      z.getLsbD i = z'.getLsbD i := by
    have hi := congrArg (BitVec.getLsbD · i) h
    simp only [BitVec.getLsbD_xor, BitVec.getLsbD_ushiftRight, hup] at hi
    exact Bool.xor_left_inj.mp hi
  have hall : ∀ n i, w ≤ i + n → z.getLsbD i = z'.getLsbD i := by
    intro n
    induction n with
    | zero =>
        intro i hi
        rw [BitVec.getLsbD_of_ge z i hi, BitVec.getLsbD_of_ge z' i hi]
    | succ n ih =>
        intro i hi
        exact hbit i (ih (k + i) (by omega))
  exact BitVec.eq_of_getLsbD_eq fun i _ => hall w i (by omega)

theorem mul_odd_injective {a : BitVec w} (ha : a.toNat % 2 = 1) :
    Function.Injective fun z : BitVec w => z * a := by
  intro z z' h
  have hmul : z.toNat * a.toNat ≡ z'.toNat * a.toNat [MOD 2 ^ w] := by
    have hnat := congrArg BitVec.toNat h
    simp only [BitVec.toNat_mul] at hnat
    exact hnat
  have hcop : Nat.gcd (2 ^ w) a.toNat = 1 :=
    Nat.Coprime.pow_left w (Nat.coprime_two_left.mpr (Nat.odd_iff.mpr ha))
  have hmod := Nat.ModEq.cancel_right_of_coprime hcop hmul
  rwa [Nat.ModEq, Nat.mod_eq_of_lt z.isLt, Nat.mod_eq_of_lt z'.isLt, BitVec.toNat_inj] at hmod

/-- The places of a walk from `s` by the stride `g`. -/
theorem stride_injOn (s : BitVec w) {g : BitVec w} (hg : g.toNat % 2 = 1) :
    Set.InjOn (fun n : Nat => s + BitVec.ofNat w n * g) {n | n < 2 ^ w} := by
  intro m hm n hn h
  have hmul := mul_odd_injective hg ((BitVec.add_right_inj s).mp h)
  have := congrArg BitVec.toNat hmul
  rwa [BitVec.toNat_ofNat, BitVec.toNat_ofNat, Nat.mod_eq_of_lt hm, Nat.mod_eq_of_lt hn] at this

end Mixing

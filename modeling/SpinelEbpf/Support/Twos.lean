import Mathlib

/-!
# Support — Two's complement

Integers seen through their low bits.  `InBits m a` says that `a` is a signed number of `m + 1`
bits.  Both that and congruence modulo a power of two are read off one bit at a time
(`inBits_succ`, `modEq_succ_iff`), so a bitwise operation keeps them: it respects congruence modulo
`2 ^ w` (`bitwise_modEq`), and of two numbers of `m + 1` bits it gives another (`inBits_bitwise`).

The last section compares the two roundings of a quotient.
-/

namespace Twos

/-- A signed number of `m + 1` bits. -/
def InBits (m : Nat) (a : Int) : Prop := -2 ^ m ≤ a ∧ a < 2 ^ m

instance (m : Nat) (a : Int) : Decidable (InBits m a) := inferInstanceAs (Decidable (_ ∧ _))

/-! ### Wrapping -/

/-- Wrapping changes nothing but what does not fit. -/
theorem bmod_eq_self_iff (m : Nat) (a : Int) : a.bmod (2 ^ (m + 1)) = a ↔ InBits m a := by
  have hpos : (0 : Int) < 2 ^ m := by positivity
  have hsucc : (2 : Int) ^ (m + 1) = 2 * 2 ^ m := pow_succ' 2 m
  constructor
  · intro h
    have hl := Int.le_bmod (x := a) (m := 2 ^ (m + 1)) (by positivity)
    have hu := Int.bmod_lt (x := a) (m := 2 ^ (m + 1)) (by positivity)
    rw [h] at hl hu
    push_cast at hl hu
    exact ⟨by omega, by omega⟩
  · rintro ⟨hl, hu⟩
    apply Int.bmod_eq_of_le_mul_two
    · push_cast
      omega
    · push_cast
      omega

theorem inBits_bmod (m : Nat) (a : Int) : InBits m (a.bmod (2 ^ (m + 1))) :=
  (bmod_eq_self_iff m _).mp Int.bmod_bmod

theorem bmod_modEq (a : Int) (w : Nat) : a.bmod (2 ^ w) ≡ a [ZMOD 2 ^ w] := by
  have h : a.bmod (2 ^ w) % ((2 ^ w : Nat) : Int) = a % ((2 ^ w : Nat) : Int) := Int.bmod_emod
  push_cast at h
  exact h

variable {w m n : Nat} {a b : Int}

theorem bmod_congr (h : a ≡ b [ZMOD 2 ^ w]) :
    a.bmod (2 ^ w) = b.bmod (2 ^ w) := by
  have h' : a % ((2 ^ w : Nat) : Int) = b % ((2 ^ w : Nat) : Int) := by
    push_cast
    exact h
  rw [← Int.emod_bmod a, h', Int.emod_bmod]

/-- Two numbers that fit are equal once they agree in as many bits. -/
theorem InBits.eq_of_modEq (ha : InBits m a) (hb : InBits m b) (h : a ≡ b [ZMOD 2 ^ (m + 1)]) :
    a = b := by
  rw [← (bmod_eq_self_iff m a).mpr ha, ← (bmod_eq_self_iff m b).mpr hb]
  exact bmod_congr h

theorem InBits.mono (ha : InBits m a) (hmn : m ≤ n) : InBits n a := by
  have h : (2 : Int) ^ m ≤ 2 ^ n := pow_le_pow_right₀ (by norm_num) hmn
  exact ⟨by linarith [ha.1], by linarith [ha.2]⟩

theorem abs_le_of_inBits (ha : InBits m a) : |a| ≤ 2 ^ m :=
  abs_le.mpr ⟨ha.1, ha.2.le⟩

theorem inBits_mul {k : Nat} (ha : |a| ≤ 2 ^ m) (hb : |b| ≤ 2 ^ n) (hk : m + n < k) :
    InBits k (a * b) := by
  have habs : |a * b| ≤ 2 ^ (m + n) := by
    rw [abs_mul, pow_add]
    exact mul_le_mul ha hb (abs_nonneg b) (by positivity)
  have hlt : (2 : Int) ^ (m + n) < 2 ^ k := pow_lt_pow_right₀ (by norm_num) hk
  obtain ⟨hl, hu⟩ := abs_le.mp habs
  exact ⟨by linarith, by linarith⟩

/-! ### One bit at a time -/

theorem inBits_zero_iff (a : Int) : InBits 0 a ↔ a = 0 ∨ a = -1 := by
  unfold InBits
  norm_num
  omega

theorem inBits_succ (m : Nat) (b : Bool) (a : Int) : InBits (m + 1) (Int.bit b a) ↔ InBits m a := by
  have hsucc : (2 : Int) ^ (m + 1) = 2 * 2 ^ m := pow_succ' 2 m
  unfold InBits
  rw [Int.bit_val, hsucc]
  cases b <;> simp only [cond_true, cond_false] <;> omega

theorem modEq_succ_iff (w : Nat) (b c : Bool) (a d : Int) :
    Int.bit b a ≡ Int.bit c d [ZMOD 2 ^ (w + 1)] ↔ b = c ∧ a ≡ d [ZMOD 2 ^ w] := by
  have hsucc : (2 : Int) ^ (w + 1) = 2 * 2 ^ w := pow_succ' 2 w
  rw [Int.modEq_iff_dvd, Int.modEq_iff_dvd, Int.bit_val, Int.bit_val, hsucc]
  constructor
  · rintro ⟨q, hq⟩
    have hbc : b = c := by
      cases b <;> cases c <;> simp only [cond_true, cond_false] at hq ⊢ <;> grind
    subst hbc
    exact ⟨rfl, q, by grind⟩
  · rintro ⟨rfl, q, hq⟩
    exact ⟨q, by grind⟩

/-- A bitwise operation gives the same low bits on the same low bits. -/
theorem bitwise_modEq (f : Bool → Bool → Bool) {c d : Int} (hab : a ≡ b [ZMOD 2 ^ w])
    (hcd : c ≡ d [ZMOD 2 ^ w]) :
    Int.bitwise f a c ≡ Int.bitwise f b d [ZMOD 2 ^ w] := by
  induction w generalizing a b c d with
  | zero => exact Int.modEq_one
  | succ w ih =>
      rw [← Int.bit_decomp a, ← Int.bit_decomp b] at hab ⊢
      rw [← Int.bit_decomp c, ← Int.bit_decomp d] at hcd ⊢
      obtain ⟨h₁, hab⟩ := (modEq_succ_iff w _ _ _ _).mp hab
      obtain ⟨h₂, hcd⟩ := (modEq_succ_iff w _ _ _ _).mp hcd
      rw [Int.bitwise_bit, Int.bitwise_bit, h₁, h₂, modEq_succ_iff]
      exact ⟨rfl, ih hab hcd⟩

theorem inBits_bitwise (f : Bool → Bool → Bool) (ha : InBits m a) (hb : InBits m b) :
    InBits m (Int.bitwise f a b) := by
  induction m generalizing a b with
  | zero =>
      -- `0` and `-1` are their own upper bits, and so is the result
      have hself : ∀ {c : Int}, InBits 0 c → Int.bit c.bodd c = c := by
        intro c hc
        rcases (inBits_zero_iff c).mp hc with rfl | rfl <;> rfl
      have hr : Int.bitwise f a b = Int.bit (f a.bodd b.bodd) (Int.bitwise f a b) := by
        rw [← Int.bitwise_bit, hself ha, hself hb]
      rw [Int.bit_val] at hr
      rw [inBits_zero_iff]
      cases h : f a.bodd b.bodd <;> rw [h] at hr <;> simp only [cond_true,
        cond_false] at hr <;> omega
  | succ m ih =>
      rw [← Int.bit_decomp a] at ha ⊢
      rw [← Int.bit_decomp b] at hb ⊢
      rw [inBits_succ] at ha hb
      rw [Int.bitwise_bit, inBits_succ]
      exact ih ha hb

theorem toInt_inBits (w : BitVec 64) : InBits 63 w.toInt := ⟨BitVec.le_toInt w, BitVec.toInt_lt⟩

theorem inBits_shiftRight (ha : InBits m a) (n : Nat) : InBits m (a / 2 ^ n) := by
  have hone : (1 : Int) ≤ 2 ^ n := one_le_pow₀ (by norm_num)
  have hm : (0 : Int) < 2 ^ m := by positivity
  constructor
  · apply (Int.le_ediv_iff_mul_le (by positivity)).mpr
    nlinarith [ha.1]
  · apply Int.ediv_lt_of_lt_mul (by positivity)
    nlinarith [ha.2]

/-- A shift to the right moves what two numbers differ by into the low bits. -/
theorem shiftRight_modEq_iff (hn : n ≤ w) {x : Int} (h : x ≡ a [ZMOD 2 ^ w]) :
    x / 2 ^ n ≡ a / 2 ^ n [ZMOD 2 ^ w] ↔ 2 ^ (w + n) ∣ a - x := by
  obtain ⟨q, hq⟩ : (2 : Int) ^ n ∣ a - x := (pow_dvd_pow 2 hn).trans h.dvd
  have hdiv : a / 2 ^ n = x / 2 ^ n + q := by
    rw [eq_add_of_sub_eq' hq, Int.add_mul_ediv_left _ _ (by positivity)]
  rw [Int.modEq_iff_dvd, hdiv, add_sub_cancel_left, hq, add_comm w n, pow_add]
  exact (mul_dvd_mul_iff_left (by positivity)).symm

/-! ### Rounding -/

/-- The quotient is whole or not below zero, so that it is rounded down and towards zero alike. -/
def Rounds (a b : Int) : Prop := b ∣ a ∨ (0 ≤ a ↔ 0 < b)

instance (a b : Int) : Decidable (Rounds a b) := inferInstanceAs (Decidable (_ ∨ _))

section

/-- The two roundings of a quotient: one below the other unless it is whole or not negative. -/
theorem fdiv_eq (hb : b ≠ 0) : a.fdiv b = a.tdiv b - if Rounds a b then 0 else 1 := by
  rw [Int.fdiv_eq_tdiv]
  unfold Rounds
  have hpos : 0 < b → b.sign = 1 := Int.sign_eq_one_of_pos
  have hneg : b < 0 → b.sign = -1 := Int.sign_eq_neg_one_of_neg
  by_cases hdvd : b ∣ a <;> simp only [hdvd, if_true, if_false, true_or, false_or]
  split_ifs <;> omega

/-- The remainders differ by the divisor then. -/
theorem fmod_eq : a.fmod b = a.tmod b + if Rounds a b then 0 else b := by
  rw [Int.fmod_eq_tmod]
  unfold Rounds
  by_cases hdvd : b ∣ a <;> simp only [hdvd, if_true, if_false, true_or, false_or]
  split_ifs <;> omega

end

end Twos

import SpinelEbpf.Support.Grouping

/-!
# Otlp — folding the kernel's histogram

`spnl_hist_observe` counts a value in one of 64 slots, by the integer part of its binary logarithm;
`otlp_log2_fold` adds up the slots into the 32 buckets of the declared bounds, placing a slot by its
upper edge, a `double`.

Every bound is `2 ^ m - 1`, so a value is below a bound exactly if the edge of its slot is
(`le_bound_iff`), rounded as it may be.  The buckets that come out are therefore those of the values
themselves (`fold_exact`).
-/

namespace SpinelEbpf.Otlp.Log2

open Function

/-! ### In the kernel -/

/-- `if (v >= 1 << k) { v >>= k; r += k; }`; nothing here can overflow. -/
def shiftStep (k : Nat) (s : Int × Int) : Int × Int :=
  if s.1 ≥ 2 ^ k then (s.1 >>> k, s.2 + k) else s

/-- `spnl_hist_log2`. -/
def spnlHistLog2 (v : Int) : Int :=
  if v ≤ 1 then 0
  else
    let s := shiftStep 1 <| shiftStep 2 <| shiftStep 4 <| shiftStep 8 <| shiftStep 16 <|
      shiftStep 32 (v, 0)
    if s.2 > 63 then 63 else s.2

/-- `OTLP_HIST_SLOTS`, and the size of `bpf_hist`. -/
def histSlots : Nat := 64

/-- `(__u32)spnl_hist_log2(v)`. -/
def slotOf (v : Int64) : Nat := (spnlHistLog2 v.toInt % 2 ^ 32).toNat

/-- `spnl_hist_observe`. -/
def spnlHistObserve (slots : Nat → UInt64) (v : Int64) : Nat → UInt64 :=
  if slotOf v ≥ histSlots then slots
  else update slots (slotOf v) (slots (slotOf v) + 1)

/-! ### In the exporter -/

/-- The `double` nearest to a whole number, ties to even. -/
def nearestDouble (n : Nat) : Nat :=
  if n < 2 ^ 53 then n
  else
    let ulp := 2 ^ (Nat.log2 n - 52)
    let q := n / ulp
    let r := n % ulp
    if 2 * r > ulp ∨ (2 * r = ulp ∧ q % 2 = 1) then (q + 1) * ulp else q * ulp

/-- `SPNL_BOUNDS_LOG2_NS_31_INIT`. -/
def bounds : List Nat :=
  [1, 3, 7, 15, 31, 63, 127, 255, 511, 1023, 2047, 4095, 8191, 16383, 32767, 65535, 131071, 262143,
    524287, 1048575, 2097151, 4194303, 8388607, 16777215, 33554431, 67108863, 134217727, 536870911,
    2147483647, 8589934591, 34359738367]

/-- `(double)((uint64_t)1 << s) * 2.0 - 1.0`. -/
def edge (s : Nat) : Nat := nearestDouble (nearestDouble (nearestDouble (2 ^ s) * 2) - 1)

/-- The bucket of a slot: the first bound that is not below the edge, or the overflow bucket. -/
def bucketOf (s : Nat) : Nat := bounds.findIdx fun b => b ≥ edge s

/-- What `otlp_log2_fold` writes. -/
structure Folded where
  buckets : Nat → UInt64
  count : UInt64
  sum : Nat

/-- One slot. -/
def foldSlot (slots : Nat → UInt64) (f : Folded) (s : Nat) : Folded :=
  let c := slots s
  if c = 0 then f
  else
    let mid := if s = 0 then 1 else 3 * 2 ^ (s - 1)
    { buckets := update f.buckets (bucketOf s) (f.buckets (bucketOf s) + c)
      count := f.count + c
      sum := nearestDouble (f.sum + nearestDouble (nearestDouble c.toNat * mid)) }

/-- `otlp_log2_fold`. -/
def otlpLog2Fold (slots : Nat → UInt64) : Folded :=
  (List.range histSlots).foldl (foldSlot slots) ⟨fun _ => 0, 0, 0⟩

/-! ### The slot of a value -/

/-- What is left to halve: below `2 ^ w`, and `v₀` without its last bits. -/
def Narrowed (v₀ w : Nat) (s : Int × Int) : Prop :=
  ∃ v r : Nat, s = ((v : Int), (r : Int)) ∧ 1 ≤ v ∧ v < 2 ^ w ∧ v * 2 ^ r ≤ v₀ ∧
    v₀ < (v + 1) * 2 ^ r

theorem Narrowed.shiftStep {v₀ k : Nat} {s : Int × Int} (h : Narrowed v₀ (2 * k) s) :
    Narrowed v₀ k (shiftStep k s) := by
  obtain ⟨v, r, rfl, hpos, hlt, hle, hlow⟩ := h
  unfold Log2.shiftStep
  have hcast : ((v : Int) ≥ 2 ^ k) ↔ 2 ^ k ≤ v := by exact_mod_cast Iff.rfl
  by_cases hk : 2 ^ k ≤ v
  · rw [if_pos (hcast.mpr hk)]
    have hquot : v / 2 ^ k * 2 ^ k ≤ v := Nat.div_mul_le_self v (2 ^ k)
    have hnext : v + 1 ≤ (v / 2 ^ k + 1) * 2 ^ k := by
      rw [mul_comm]
      exact Nat.lt_mul_div_succ v (Nat.two_pow_pos k)
    refine ⟨v / 2 ^ k, r + k, ?_, Nat.div_pos hk (Nat.two_pow_pos k), ?_, ?_, ?_⟩
    · rw [Int.shiftRight_eq_div_pow]
      push_cast
      rfl
    · rw [Nat.div_lt_iff_lt_mul (Nat.two_pow_pos k), ← pow_add, ← two_mul]
      exact hlt
    · calc v / 2 ^ k * 2 ^ (r + k)
        _ = v / 2 ^ k * 2 ^ k * 2 ^ r := by ring
        _ ≤ v * 2 ^ r := Nat.mul_le_mul_right _ hquot
        _ ≤ v₀ := hle
    · calc v₀
        _ < (v + 1) * 2 ^ r := hlow
        _ ≤ (v / 2 ^ k + 1) * 2 ^ k * 2 ^ r := Nat.mul_le_mul_right _ hnext
        _ = (v / 2 ^ k + 1) * 2 ^ (r + k) := by ring
  · rw [if_neg fun hc => hk (hcast.mp hc)]
    exact ⟨v, r, rfl, hpos, Nat.not_le.mp hk, hle, hlow⟩

theorem spnlHistLog2_spec {n : Nat} (hlo : 2 ≤ n) (hhi : n < 2 ^ 63) :
    spnlHistLog2 n = Nat.log2 n := by
  have hstart : Narrowed n (2 * 32) ((n : Int), 0) :=
    ⟨n, 0, rfl, by omega, hhi.trans (by decide), by omega, by omega⟩
  have h16 : Narrowed n (2 * 16) (shiftStep 32 ((n : Int), 0)) := hstart.shiftStep
  have h8 : Narrowed n (2 * 8) _ := h16.shiftStep
  have h4 : Narrowed n (2 * 4) _ := h8.shiftStep
  have h2 : Narrowed n (2 * 2) _ := h4.shiftStep
  have h1 : Narrowed n (2 * 1) _ := h2.shiftStep
  obtain ⟨v, r, hs, hpos, hv, hle, hlt⟩ := h1.shiftStep
  obtain rfl : v = 1 := by omega
  have hlog : Nat.log2 n = r :=
    (Nat.log2_eq_iff (by omega)).mpr ⟨by omega, by rw [pow_succ]; omega⟩
  have hr : r < 63 := by
    rw [← hlog]
    exact (Nat.log2_lt (by omega)).mpr hhi
  unfold spnlHistLog2
  rw [if_neg (by omega)]
  dsimp only
  rw [hs, hlog]
  exact if_neg (by omega)

/-- The slot of a value. -/
theorem slotOf_spec (v : Int64) :
    (v.toInt ≤ 1 ∧ slotOf v = 0) ∨ ∃ n : Nat, v.toInt = n ∧ 2 ≤ n ∧ slotOf v = Nat.log2 n := by
  unfold slotOf
  by_cases hv : v.toInt ≤ 1
  · refine .inl ⟨hv, ?_⟩
    rw [spnlHistLog2, if_pos hv]
    rfl
  · obtain ⟨n, hn⟩ := Int.eq_ofNat_of_zero_le (show 0 ≤ v.toInt by omega)
    have hhi : n < 2 ^ 63 := by
      have := v.toInt_lt
      omega
    have hlog : Nat.log2 n < 63 := (Nat.log2_lt (by omega)).mpr hhi
    refine .inr ⟨n, hn, by omega, ?_⟩
    rw [hn, spnlHistLog2_spec (by omega) hhi]
    omega

theorem slotOf_lt (v : Int64) : slotOf v < histSlots := by
  rcases slotOf_spec v with ⟨-, h⟩ | ⟨n, hn, hlo, h⟩
  · rw [h]
    decide
  · have hlt := v.toInt_lt
    rw [h, Nat.log2_lt (by omega)]
    unfold histSlots
    omega

/-! ### The bucket of a slot -/

/-- The edge is exact up to slot 52, and then one too high. -/
theorem edge_eq : ∀ s < histSlots, edge s = if s < 53 then 2 ^ (s + 1) - 1 else 2 ^ (s + 1) := by
  decide +kernel

theorem bounds_spec : ∀ b ∈ bounds, ∃ m, 1 ≤ m ∧ m < 36 ∧ b = 2 ^ m - 1 := by
  have hlist : ∀ b ∈ bounds, ∃ m ∈ List.range 36, 1 ≤ m ∧ b = 2 ^ m - 1 := by decide
  intro b hb
  obtain ⟨m, hm, hpos, rfl⟩ := hlist b hb
  exact ⟨m, hpos, List.mem_range.mp hm, rfl⟩

/-- **No bound splits a slot**: a value is within a bound exactly if the edge of its slot is. -/
theorem le_bound_iff {b : Nat} (hb : b ∈ bounds) (v : Int64) :
    v.toInt ≤ b ↔ edge (slotOf v) ≤ b := by
  obtain ⟨m, hpos, hm, rfl⟩ := bounds_spec b hb
  have hpow : 2 ^ 1 ≤ 2 ^ m := Nat.pow_le_pow_right (by decide) hpos
  rw [edge_eq _ (slotOf_lt v)]
  rcases slotOf_spec v with ⟨hv, hslot⟩ | ⟨n, hv, hlo, hslot⟩
  · rw [hslot]
    refine iff_of_true ?_ ?_
    · omega
    · rw [if_pos (by decide)]
      omega
  · have hlt : n < 2 ^ m ↔ Nat.log2 n < m := (Nat.log2_lt (by omega)).symm
    have hup : 2 ^ (Nat.log2 n + 1) ≤ 2 ^ m ↔ Nat.log2 n < m :=
      Nat.pow_le_pow_iff_right (by decide)
    rw [hv, hslot]
    split
    · omega
    · omega

/-! ### Direct bucketing -/

/-- `bounds[j-1] < v <= bounds[j]`, without a lower limit for the first bucket and without an upper
limit for the last. -/
def inBucket (j : Nat) (v : Int64) : Bool :=
  (j == 0 || decide ((bounds.getD (j - 1) 0 : Int) < v.toInt)) &&
    (j == bounds.length || decide (v.toInt ≤ bounds.getD j 0))

theorem bounds_sorted : bounds.Pairwise (· < ·) := by decide

theorem bounds_mono {i k : Nat} (hik : i ≤ k) (hk : k < bounds.length) :
    bounds.getD i 0 ≤ bounds.getD k 0 := by
  rw [List.getD_eq_getElem _ _ (hik.trans_lt hk), List.getD_eq_getElem _ _ hk]
  rcases hik.eq_or_lt with rfl | hlt
  · exact le_refl _
  · exact (List.pairwise_iff_getElem.mp bounds_sorted i k _ hk hlt).le

/-- The bounds before bucket `j` are below `v` if the last of them is. -/
theorem above_iff {j : Nat} (hj : j ≤ bounds.length) (v : Int) :
    (∀ i, i < j → (bounds.getD i 0 : Int) < v) ↔ j = 0 ∨ (bounds.getD (j - 1) 0 : Int) < v := by
  constructor
  · intro h
    rcases Nat.eq_zero_or_pos j with rfl | hpos
    · exact .inl rfl
    · exact .inr (h (j - 1) (by omega))
  · rintro (rfl | h) i hi
    · cases hi
    · exact (Int.ofNat_le.mpr (bounds_mono (by omega) (by omega))).trans_lt h

/-- The bucket of a value is the first bound that is not below it. -/
theorem findIdx_bounds_iff {j : Nat} (hj : j ≤ bounds.length) (v : Int64) :
    bounds.findIdx (fun b : Nat => decide (v.toInt ≤ (b : Int))) = j ↔ inBucket j v = true := by
  have hlow := above_iff hj v.toInt
  have hget (i : Nat) (hi : i < bounds.length) : bounds.getD i 0 = bounds[i] :=
    List.getD_eq_getElem _ _ hi
  unfold inBucket
  rw [Bool.and_eq_true, Bool.or_eq_true, Bool.or_eq_true, beq_iff_eq, beq_iff_eq,
    decide_eq_true_eq, decide_eq_true_eq, ← hlow]
  rcases hj.eq_or_lt with rfl | hlt
  · rw [List.findIdx_eq_length]
    constructor
    · intro h
      refine ⟨fun i hi => ?_, .inl rfl⟩
      rw [hget i hi]
      exact not_le.mp (of_decide_eq_false (h _ (List.getElem_mem hi)))
    · rintro ⟨h, -⟩ b hb
      obtain ⟨i, hi, rfl⟩ := List.getElem_of_mem hb
      have := h i hi
      rw [hget i hi] at this
      exact decide_eq_false (not_le.mpr this)
  · rw [List.findIdx_eq hlt]
    constructor
    · rintro ⟨hat, hbefore⟩
      refine ⟨fun i hi => ?_, .inr ?_⟩
      · rw [hget i (hi.trans hlt)]
        exact not_le.mp (of_decide_eq_false (hbefore i hi))
      · rw [hget j hlt]
        exact of_decide_eq_true hat
    · rintro ⟨hbefore, hat⟩
      refine ⟨decide_eq_true ?_, fun i hi => decide_eq_false (not_le.mpr ?_)⟩
      · rw [← hget j hlt]
        exact hat.resolve_left hlt.ne
      · rw [← hget i (hi.trans hlt)]
        exact hbefore i hi

/-- A value's slot goes into the value's bucket. -/
theorem bucketOf_slotOf {j : Nat} (hj : j ≤ bounds.length) (v : Int64) :
    bucketOf (slotOf v) = j ↔ inBucket j v = true := by
  have hsame : bucketOf (slotOf v) = bounds.findIdx fun b : Nat => decide (v.toInt ≤ (b : Int)) := by
    rw [bucketOf, List.findIdx_eq_getD_findIdx?, List.findIdx_eq_getD_findIdx?]
    rw [Grouping.findIdx?_congr fun b hb => decide_eq_decide.mpr (le_bound_iff hb v).symm]
  rw [hsame, findIdx_bounds_iff hj]

/-! ### Counting -/

/-- The slots after the values `vs`. -/
theorem observed (slots : Nat → UInt64) (vs : List Int64) (s : Nat) :
    (vs.foldl spnlHistObserve slots) s =
      slots s + UInt64.ofNat (vs.countP fun v => slotOf v = s) := by
  induction vs generalizing slots with
  | nil => exact (UInt64.add_zero _).symm
  | cons v vs ih =>
      rw [List.foldl_cons, ih, spnlHistObserve, if_neg (Nat.not_le.mpr (slotOf_lt v)),
        List.countP_cons]
      by_cases hs : slotOf v = s
      · rw [← hs, update_self, decide_eq_true rfl, if_pos rfl, UInt64.ofNat_add,
          UInt64.add_assoc, UInt64.add_comm 1]
        rfl
      · rw [update_of_ne (Ne.symm hs), decide_eq_false hs, if_neg Bool.false_ne_true,
          Nat.add_zero]

/-- One more slot adds the values in it. -/
theorem countP_lt_succ (vs : List Int64) (q : Int64 → Bool) (n : Nat) :
    vs.countP (fun v => decide (slotOf v < n + 1) && q v) =
      vs.countP (fun v => decide (slotOf v < n) && q v) +
        vs.countP fun v => decide (slotOf v = n) && q v := by
  induction vs with
  | nil => rfl
  | cons v vs ih =>
      rw [List.countP_cons, List.countP_cons, List.countP_cons, ih]
      rcases Nat.lt_trichotomy (slotOf v) n with hlt | heq | hgt
      · simp [hlt, hlt.ne, hlt.trans (Nat.lt_succ_self n), Nat.add_right_comm]
      · simp [heq, Nat.add_assoc]
      · simp [hgt.ne', Nat.not_lt.mpr hgt.le, Nat.not_lt.mpr (Nat.succ_le_of_lt hgt)]

/-- One slot, folded. -/
theorem foldSlot_spec (slots : Nat → UInt64) (f : Folded) (s : Nat) :
    (∀ j, (foldSlot slots f s).buckets j = f.buckets j + if bucketOf s = j then slots s else 0) ∧
      (foldSlot slots f s).count = f.count + slots s := by
  unfold foldSlot
  dsimp only
  by_cases hzero : slots s = 0
  · rw [if_pos hzero, hzero]
    refine ⟨fun j => ?_, (UInt64.add_zero _).symm⟩
    rw [ite_self, UInt64.add_zero]
  · rw [if_neg hzero]
    refine ⟨fun j => ?_, rfl⟩
    dsimp only
    by_cases hj : bucketOf s = j
    · rw [← hj, update_self, if_pos rfl]
    · rw [update_of_ne (Ne.symm hj), if_neg hj, UInt64.add_zero]

/-- The values of one slot all go into one bucket. -/
theorem countP_slot (vs : List Int64) (n j : Nat) :
    UInt64.ofNat (vs.countP fun v => decide (slotOf v = n) && decide (bucketOf (slotOf v) = j)) =
      if bucketOf n = j then UInt64.ofNat (vs.countP fun v => decide (slotOf v = n)) else 0 := by
  split
  · rename_i hj
    congr 1
    refine List.countP_congr fun v _ => ?_
    rw [Bool.and_eq_true, decide_eq_true_eq, decide_eq_true_eq]
    exact ⟨fun h => h.1, fun h => ⟨h, h ▸ hj⟩⟩
  · rename_i hj
    rw [List.countP_eq_zero.mpr fun v _ hv => ?_]
    · rfl
    · rw [Bool.and_eq_true, decide_eq_true_eq, decide_eq_true_eq] at hv
      exact hj (hv.1 ▸ hv.2)

/-- **The first `n` slots, folded**, hold the values in them. -/
theorem folded (vs : List Int64) (n : Nat) :
    (∀ j, ((List.range n).foldl (foldSlot (vs.foldl spnlHistObserve fun _ => 0))
        ⟨fun _ => 0, 0, 0⟩).buckets j =
      UInt64.ofNat (vs.countP fun v => decide (slotOf v < n) && decide (bucketOf (slotOf v) = j))) ∧
      ((List.range n).foldl (foldSlot (vs.foldl spnlHistObserve fun _ => 0))
        ⟨fun _ => 0, 0, 0⟩).count =
      UInt64.ofNat (vs.countP fun v => decide (slotOf v < n) && true) := by
  induction n with
  | zero =>
      have hnone (q : Int64 → Bool) : vs.countP (fun v => decide (slotOf v < 0) && q v) = 0 :=
        List.countP_eq_zero.mpr fun v _ => by simp
      rw [hnone]
      exact ⟨fun j => by rw [hnone]; rfl, rfl⟩
  | succ n ih =>
      obtain ⟨hbuckets, hcount⟩ := ih
      have hslot : (vs.foldl spnlHistObserve fun _ => 0) n =
          UInt64.ofNat (vs.countP fun v => decide (slotOf v = n)) := by
        rw [observed, UInt64.zero_add]
      rw [List.range_succ, List.foldl_append, List.foldl_cons, List.foldl_nil]
      obtain ⟨hone, hone'⟩ := foldSlot_spec (vs.foldl spnlHistObserve fun _ => 0)
        ((List.range n).foldl (foldSlot (vs.foldl spnlHistObserve fun _ => 0)) ⟨fun _ => 0, 0, 0⟩) n
      refine ⟨fun j => ?_, ?_⟩
      · rw [hone, hbuckets, hslot, countP_lt_succ, UInt64.ofNat_add, countP_slot]
      · rw [hone', hcount, hslot, countP_lt_succ, UInt64.ofNat_add]
        simp only [Bool.and_true]

/-- **Folding is exact.**  Observe fewer than 2⁶⁴ values one after the other, starting from empty
slots, and fold the slots: every bucket has as many as there are values between its bounds, and the
count is the number of values. -/
theorem fold_exact (vs : List Int64) (hlen : vs.length < 2 ^ 64) :
    (∀ j, j ≤ bounds.length →
      ((otlpLog2Fold (vs.foldl spnlHistObserve fun _ => 0)).buckets j).toNat =
        vs.countP (inBucket j)) ∧
      (otlpLog2Fold (vs.foldl spnlHistObserve fun _ => 0)).count.toNat = vs.length := by
  obtain ⟨hbuckets, hcount⟩ := folded vs histSlots
  have hbound (p : Int64 → Bool) : vs.countP p < UInt64.size :=
    (List.countP_le_length).trans_lt hlen
  refine ⟨fun j hj => ?_, ?_⟩
  · rw [otlpLog2Fold, hbuckets, UInt64.toNat_ofNat_of_lt' (hbound _)]
    refine List.countP_congr fun v _ => ?_
    rw [decide_eq_true (slotOf_lt v), Bool.true_and, decide_eq_true_eq, bucketOf_slotOf hj]
  · rw [otlpLog2Fold, hcount, UInt64.toNat_ofNat_of_lt' (hbound _), List.countP_eq_length]
    intro v _
    rw [decide_eq_true (slotOf_lt v)]
    rfl

/-- A negative value, the values 3 and 4, and the greatest one. -/
theorem fold_exact_four :
    ((otlpLog2Fold ([-5, 3, 4, 9223372036854775807].foldl spnlHistObserve fun _ => 0)).buckets
      31).toNat = 1 ∧
      (otlpLog2Fold ([-5, 3, 4, 9223372036854775807].foldl spnlHistObserve fun _ => 0)).count.toNat =
        4 := by
  obtain ⟨hbuckets, hcount⟩ := fold_exact [-5, 3, 4, 9223372036854775807] (by decide)
  exact ⟨(hbuckets 31 (by decide)).trans (by decide), hcount⟩

end SpinelEbpf.Otlp.Log2

import SpinelEbpf.Support.CString

/-!
# Otlp — lists in the environment

`OTEL_EXPORTER_OTLP_HEADERS` and `OTEL_RESOURCE_ATTRIBUTES` hold pairs `k1=v1,k2=v2`.
`otlp_env_kv_list` reads them in one walk with a pointer: it skips commas and spaces, takes what
stands before the next comma, trims both sides of its first `=` and writes the pair into the next
slot, which the following pair overwrites when the key was empty.

`pairs` is the grammar, said without a pointer: split at the commas, drop, split, trim, drop and
cut.  The stored pairs are its first `max` (`otlpEnvKvList_eq_pairs`).
-/

namespace SpinelEbpf.Otlp.EnvList

open Function
open CString (Str)

abbrev CString := Str UInt8

/-- `otlp_kv_t`, each buffer as the string in it. -/
structure OtlpKv where
  key : List UInt8
  val : List UInt8
  deriving DecidableEq, Repr

/-- `sizeof out[n].key`. -/
def keySize : Nat := 128

/-- `sizeof out[n].val`. -/
def valSize : Nat := 512

/-- A space or a tab. -/
def blank (b : UInt8) : Bool := b = 32 || b = 9

/-- The two loops that move the ends of a slice past its blanks. -/
def trim (slice : List UInt8) : List UInt8 := (slice.dropWhile blank).rdropWhile blank

/-- What is left of a slice in a buffer of `size` bytes, the terminator apart. -/
def cut (size : Nat) (slice : List UInt8) : List UInt8 :=
  slice.take (if slice.length ≥ size then size - 1 else slice.length)

/-! ### The walk -/

/-- A segment before its first `=`. -/
def beforeEq (seg : List UInt8) : List UInt8 := seg.takeWhile (· ≠ 61)

/-- A segment after its first `=`. -/
def afterEq (seg : List UInt8) : List UInt8 := (seg.dropWhile (· ≠ 61)).drop 1

/-- The pair of a segment with an `=`, as it is written into a slot. -/
def segmentPair (seg : List UInt8) : OtlpKv :=
  { key := cut keySize (trim (beforeEq seg)), val := cut valSize (trim (afterEq seg)) }

/-- The rest of the string after the first comma, or its end. -/
def afterComma (p : List UInt8) : List UInt8 := (p.dropWhile (· ≠ 44)).drop 1

theorem length_afterComma_lt {p : List UInt8} (hp : p ≠ []) : (afterComma p).length < p.length := by
  have hdrop : (p.dropWhile (· ≠ 44)).length ≤ p.length := (List.dropWhile_suffix _).length_le
  have hpos : 0 < p.length := List.length_pos_iff.mpr hp
  rw [afterComma, List.length_drop]
  omega

/-- The bytes a segment starts after. -/
def skipped (b : UInt8) : Bool := b = 44 || b = 32

/-- The outer loop, at `p` with `n` slots filled. -/
def walk (max : Nat) (p : List UInt8) (n : Nat) (out : Nat → OtlpKv) : Nat × (Nat → OtlpKv) :=
  if p = [] ∨ max ≤ n then (n, out)
  else
    let q := p.dropWhile skipped
    if hq : q = [] then (n, out)
    else
      have : (afterComma q).length < p.length :=
        (length_afterComma_lt hq).trans_le (List.dropWhile_suffix _).length_le
      let seg := q.takeWhile (· ≠ 44)
      if 61 ∈ seg then
        let kv := segmentPair seg
        -- a slot with an empty key is written and not kept
        walk max (afterComma q) (if kv.key.headD 0 ≠ 0 then n + 1 else n) (update out n kv)
      else walk max (afterComma q) n out
termination_by p.length

/-- `otlp_env_kv_list`: how many pairs were stored, and the slots. -/
def otlpEnvKvList (env : Option CString) (out : Nat → OtlpKv) (max : Int) :
    Nat × (Nat → OtlpKv) :=
  match env with
  | none   => (0, out)
  | some e => if e.bytes = [] ∨ max ≤ 0 then (0, out) else walk max.toNat e.bytes 0 out

/-- The stored pairs. -/
def stored (r : Nat × (Nat → OtlpKv)) : List OtlpKv := (List.range r.1).map r.2

/-! ### The grammar -/

/-- The pairs of a string. -/
def pairs (s : List UInt8) : List OtlpKv :=
  (s.splitOn 44).filter (fun seg => 61 ∈ seg)
    |>.map (fun seg => (⟨beforeEq seg, afterEq seg⟩ : OtlpKv))
    |>.map (fun kv => (⟨trim kv.key, trim kv.val⟩ : OtlpKv))
    |>.filter (fun kv => kv.key ≠ [])
    |>.map fun kv => ⟨kv.key.take 127, kv.val.take 511⟩

/-- What one segment adds to the pairs. -/
def segmentPairs (seg : List UInt8) : List OtlpKv :=
  if 61 ∈ seg ∧ trim (beforeEq seg) ≠ [] then [segmentPair seg] else []

theorem cut_eq_take {size : Nat} (hsize : 0 < size) (slice : List UInt8) :
    cut size slice = slice.take (size - 1) := by
  rw [cut]
  split
  · rfl
  · rw [List.take_length, List.take_of_length_le (by omega)]

theorem pairs_eq_flatMap (s : List UInt8) : pairs s = (s.splitOn 44).flatMap segmentPairs := by
  rw [pairs]
  induction s.splitOn 44 with
  | nil => rfl
  | cons seg segs ih =>
      rw [List.flatMap_cons, ← ih, segmentPairs]
      by_cases heq : 61 ∈ seg
      · by_cases hkey : trim (beforeEq seg) = []
        · simp [heq, hkey]
        · simp [heq, hkey, segmentPair, cut_eq_take, keySize, valSize]
      · simp [heq]

theorem segmentPairs_nil : segmentPairs [] = [] := by simp [segmentPairs]

/-- A space before the key is trimmed. -/
theorem segmentPairs_space (seg : List UInt8) : segmentPairs (32 :: seg) = segmentPairs seg := by
  have htrim : ∀ slice, trim (32 :: slice) = trim slice := fun slice => by
    rw [trim, List.dropWhile_cons_of_pos (by decide), trim]
  have hbefore : beforeEq (32 :: seg) = 32 :: beforeEq seg := List.takeWhile_cons_of_pos (by decide)
  have hafter : afterEq (32 :: seg) = afterEq seg := by
    rw [afterEq, List.dropWhile_cons_of_pos (by decide), afterEq]
  simp [segmentPairs, segmentPair, htrim, hbefore, hafter]

/-- What the walk skips between segments holds no pair. -/
theorem pairs_dropWhile_skipped (s : List UInt8) : pairs (s.dropWhile skipped) = pairs s := by
  induction s with
  | nil => rfl
  | cons b s ih =>
      by_cases hb : skipped b
      · rw [List.dropWhile_cons_of_pos hb, ih, pairs_eq_flatMap, pairs_eq_flatMap,
          List.splitOn_cons_eq_if_modifyHead]
        have hcases : b = 44 ∨ b = 32 := by simpa [skipped] using hb
        rcases hcases with rfl | rfl
        · simp [segmentPairs_nil]
        · obtain ⟨seg, segs, hsplit⟩ := List.exists_cons_of_ne_nil (List.splitOn_ne_nil 44 s)
          simp [hsplit, segmentPairs_space]
      · rw [List.dropWhile_cons_of_neg hb]

/-- The first segment, and the rest. -/
theorem pairs_eq_append (q : List UInt8) :
    pairs q = segmentPairs (q.takeWhile (· ≠ 44)) ++ pairs (afterComma q) := by
  have hseg : (44 : UInt8) ∉ q.takeWhile (· ≠ 44) := fun hmem => by
    simpa using List.mem_takeWhile_imp hmem
  simp only [pairs_eq_flatMap]
  have hq := List.takeWhile_append_dropWhile (p := fun b : UInt8 => b ≠ 44) (l := q)
  cases hrest : q.dropWhile (· ≠ 44) with
  | nil =>
      rw [hrest, List.append_nil] at hq
      rw [afterComma, hrest, List.drop_nil, List.splitOn_nil, List.flatMap_singleton,
        segmentPairs_nil, List.append_nil, hq, List.splitOn_eq_singleton (hq ▸ hseg),
        List.flatMap_singleton]
  | cons c r =>
      have hc : c = 44 := by
        have hhead := List.head?_dropWhile_not (fun b : UInt8 => b ≠ 44) q
        rw [hrest] at hhead
        simpa using hhead
      subst hc
      rw [hrest] at hq
      conv_lhs => rw [← hq, List.splitOn_append_cons_self_of_not_mem hseg]
      rw [List.flatMap_cons, afterComma, hrest, List.drop_one, List.tail_cons]

/-- Writing the next slot appends to the stored pairs, and nothing else does. -/
theorem stored_update (n : Nat) (out : Nat → OtlpKv) (kv : OtlpKv) :
    stored (n, update out n kv) = stored (n, out) ∧
      stored (n + 1, update out n kv) = stored (n, out) ++ [kv] := by
  have hsame : (List.range n).map (update out n kv) = (List.range n).map out :=
    List.map_congr_left fun i hi =>
      update_of_ne (List.mem_range.mp hi).ne kv out
  refine ⟨hsame, ?_⟩
  simp only [stored, List.range_succ, List.map_append, hsame, List.map_singleton,
    update_self]

/-- A slot is kept exactly when the segment has a pair: no byte of the string is the terminator. -/
theorem segmentPair_kept_iff {seg : List UInt8} (hnul : 0 ∉ seg) :
    (segmentPair seg).key.headD 0 ≠ 0 ↔ trim (beforeEq seg) ≠ [] := by
  have hkey : (segmentPair seg).key = (trim (beforeEq seg)).take 127 :=
    cut_eq_take (by decide) _
  rw [hkey]
  cases htrim : trim (beforeEq seg) with
  | nil => simp
  | cons b bs =>
      have hb : b ∈ seg := by
        have hmem : b ∈ trim (beforeEq seg) := htrim ▸ List.mem_cons_self
        have hdrop := (List.rdropWhile_prefix _ _).subset hmem
        exact (List.takeWhile_prefix _).subset ((List.dropWhile_suffix _).subset hdrop)
      have hb0 : b ≠ 0 := fun h => hnul (h ▸ hb)
      simp [hb0]

theorem afterComma_noNul {p : List UInt8} (hnul : 0 ∉ p) : 0 ∉ afterComma (p.dropWhile skipped) :=
  fun h => hnul ((List.dropWhile_suffix _).subset
    ((List.dropWhile_suffix _).subset ((List.drop_suffix 1 _).subset h)))

/-- **The walk stores the pairs of what it walks over**, as far as slots are left. -/
theorem stored_walk (max : Nat) (p : List UInt8) (n : Nat) (out : Nat → OtlpKv) (hnul : 0 ∉ p)
    (hn : n ≤ max) :
    stored (walk max p n out) = stored (n, out) ++ (pairs p).take (max - n) := by
  fun_induction walk max p n out with
  | case1 p n out hstop =>
      rcases hstop with rfl | hfull
      · simp [pairs_eq_flatMap, segmentPairs_nil]
      · simp [Nat.sub_eq_zero_of_le hfull]
  | case2 p n out hgo q hq =>
      have hnone : pairs p = pairs q := (pairs_dropWhile_skipped p).symm
      simp [hnone, hq, pairs_eq_flatMap, segmentPairs_nil]
  | case3 p n out hgo q hq hlt seg heq kv ih =>
      obtain ⟨-, hroom⟩ := not_or.mp hgo
      have hseg : 0 ∉ seg := fun h =>
        hnul ((List.dropWhile_suffix _).subset ((List.takeWhile_prefix _).subset h))
      have hpairs : pairs p = segmentPairs seg ++ pairs (afterComma q) :=
        (pairs_dropWhile_skipped p).symm.trans (pairs_eq_append q)
      have hkept : kv.key.headD 0 ≠ 0 ↔ trim (beforeEq seg) ≠ [] := segmentPair_kept_iff hseg
      rw [hpairs, segmentPairs]
      by_cases hkey : kv.key.headD 0 ≠ 0
      · rw [dif_pos hkey] at ih
        rw [if_pos hkey, if_pos ⟨heq, hkept.mp hkey⟩, ih (afterComma_noNul hnul) (by omega),
          (stored_update n out kv).2, List.append_assoc]
        rw [show max - n = max - (n + 1) + 1 by omega]
        rfl
      · rw [dif_neg hkey] at ih
        rw [if_neg hkey, if_neg fun h => hkey (hkept.mpr h.2), ih (afterComma_noNul hnul) hn,
          (stored_update n out kv).1, List.nil_append]
  | case4 p n out hgo q hq hlt seg heq ih =>
      have hpairs : pairs p = segmentPairs seg ++ pairs (afterComma q) :=
        (pairs_dropWhile_skipped p).symm.trans (pairs_eq_append q)
      rw [ih (afterComma_noNul hnul) hn, hpairs, segmentPairs, if_neg fun h => heq h.1,
        List.nil_append]

/-- **The stored pairs are the first of the grammar's**, for every environment, every array of slots
and every limit. -/
theorem otlpEnvKvList_eq_pairs (env : Option CString) (out : Nat → OtlpKv) (max : Int) :
    stored (otlpEnvKvList env out max) =
      (pairs (env.elim [] Str.bytes)).take max.toNat := by
  cases env with
  | none => simp [otlpEnvKvList, stored, pairs_eq_flatMap, segmentPairs_nil]
  | some e =>
      rw [otlpEnvKvList]
      split
      · rename_i hnone
        rcases hnone with hempty | hmax
        · simp [hempty, stored, pairs_eq_flatMap, segmentPairs_nil]
        · simp [stored, Int.toNat_of_nonpos hmax]
      · rw [stored_walk max.toNat e.bytes 0 out e.noNul (Nat.zero_le _)]
        rfl

end SpinelEbpf.Otlp.EnvList

import Mathlib

/-!
# Support — Tables of counters

A table has one entry for each key and an entry counts what falls into it.  The keys are distinct,
so a table whose keys are among `n` values has at most `n` entries (`length_le_of_keys`), and an
event that adds one to one entry adds one to the total (`total_modify`).  Counters wrap at `2 ^ 64`.
-/

namespace Tally

section Keys

variable {ε κ : Type} {key : ε → κ} {xs : List ε}

/-- **Pigeonhole**: a table with distinct keys is not longer than a list that has them all. -/
theorem length_le_of_keys {all : List κ} (hnodup : (xs.map key).Nodup)
    (hall : ∀ x ∈ xs, key x ∈ all) : xs.length ≤ all.length := by
  have hsub : xs.map key ⊆ all := by
    intro k hk
    obtain ⟨x, hx, rfl⟩ := List.mem_map.mp hk
    exact hall x hx
  calc xs.length
    _ = (xs.map key).length := (List.length_map key).symm
    _ ≤ all.length := (hnodup.subperm hsub).length_le

/-- A new key may be added. -/
theorem nodup_push {x : ε} (hnodup : (xs.map key).Nodup) (hnew : ∀ y ∈ xs, key y ≠ key x) :
    ((xs ++ [x]).map key).Nodup := by
  rw [List.map_append, List.map_singleton]
  refine List.nodup_append.mpr ⟨hnodup, List.nodup_singleton _, ?_⟩
  rintro k hk l hl rfl
  obtain ⟨y, hy, hyk⟩ := List.mem_map.mp hk
  exact hnew y hy (hyk.trans (List.mem_singleton.mp hl))

/-- An update that keeps the key of its entry keeps all keys. -/
theorem map_modify {f : ε → ε} (hf : ∀ x, key (f x) = key x) (i : Nat) :
    (xs.modify i f).map key = xs.map key := by
  induction xs generalizing i with
  | nil => rw [List.modify_nil]
  | cons x xs ih =>
      cases i with
      | zero => rw [List.modify_zero_cons, List.map_cons, List.map_cons, hf]
      | succ i => rw [List.modify_succ_cons, List.map_cons, List.map_cons, ih]

theorem mem_modify {f : ε → ε} {i : Nat} {x : ε} (h : x ∈ xs.modify i f) :
    x ∈ xs ∨ ∃ y, xs[i]? = some y ∧ f y = x := by
  induction xs generalizing i with
  | nil => exact .inl (by rwa [List.modify_nil] at h)
  | cons y ys ih =>
      cases i with
      | zero =>
          rw [List.modify_zero_cons] at h
          rcases List.mem_cons.mp h with rfl | h
          · exact .inr ⟨y, rfl, rfl⟩
          · exact .inl (List.mem_cons_of_mem y h)
      | succ i =>
          rw [List.modify_succ_cons] at h
          rcases List.mem_cons.mp h with rfl | h
          · exact .inl List.mem_cons_self
          · exact (ih h).imp_left (List.mem_cons_of_mem y)

end Keys

section Total

variable {ε : Type} {p : ε → Bool} {count : ε → UInt64} {xs : List ε}

/-- The sum of the counters of the entries that `p` selects. -/
def total (p : ε → Bool) (count : ε → UInt64) (xs : List ε) : UInt64 :=
  ((xs.filter p).map count).sum

theorem total_append (ys : List ε) :
    total p count (xs ++ ys) = total p count xs + total p count ys := by
  rw [total, List.filter_append, List.map_append, List.sum_append, total, total]

theorem total_cons (x : ε) :
    total p count (x :: xs) = (if p x then count x else 0) + total p count xs := by
  unfold total
  cases hp : p x <;> simp [hp]

/-- An update that adds one to its counter adds one to the total, if its entry is selected. -/
theorem total_modify {f : ε → ε} (hp : ∀ x, p (f x) = p x) (hcount : ∀ x, count (f x) = count x + 1)
    {i : Nat} {x : ε} (hi : xs[i]? = some x) :
    total p count (xs.modify i f) = total p count xs + if p x then 1 else 0 := by
  obtain ⟨hlt, hx⟩ := List.getElem?_eq_some_iff.mp hi
  obtain ⟨before, y, after, rfl, rfl, hmodify⟩ := List.exists_of_modify f hlt
  obtain rfl : y = x := by simpa using hx
  rw [hmodify, total_append, total_append, total_cons, total_cons, hp]
  cases p y with
  | true => simp only [if_true, hcount, add_assoc, add_comm, add_left_comm]
  | false => simp

end Total

end Tally

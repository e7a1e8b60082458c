import Mathlib

/-!
# Support — Cells of a static buffer

A static buffer is a function of its index with a count of the cells in use.  A loop over it marks
front (`marked`) or moves those to be kept to the front while it reads on (`Compacted`).
-/

namespace Cells

open Function

section

variable {α : Type} {a : Nat → α} {n : Nat}

/-- The first `n` cells. -/
def front (a : Nat → α) (n : Nat) : List α := (List.range n).map a

/-- Those of the first `n` cells whose mark is set. -/
def marked (mark : Nat → Bool) (a : Nat → α) (n : Nat) : List α :=
  ((List.range n).filter mark).map a

@[simp] theorem length_front : (front a n).length = n := by
  rw [front, List.length_map, List.length_range]

theorem front_congr {b : Nat → α} (h : ∀ j < n, a j = b j) : front a n = front b n :=
  List.map_congr_left fun j hj => h j (List.mem_range.mp hj)

/-- Writing behind the last cell adds one. -/
theorem front_push (x : α) : front (update a n x) (n + 1) = front a n ++ [x] := by
  rw [front, List.range_succ, List.map_append, List.map_singleton, update_self]
  exact congrArg (· ++ [x]) (front_congr fun j hj => update_of_ne hj.ne _ _)

theorem marked_succ (mark : Nat → Bool) :
    marked mark a (n + 1) = marked mark a n ++ if mark n then [a n] else [] := by
  rw [marked, List.range_succ, List.filter_append, List.map_append, marked]
  cases h : mark n <;> simp [h]

theorem mem_marked {mark : Nat → Bool} {x : α} :
    x ∈ marked mark a n ↔ ∃ j < n, mark j = true ∧ a j = x := by
  simp [marked, and_assoc]

theorem marked_sublist (mark : Nat → Bool) : (marked mark a n).Sublist (front a n) :=
  List.filter_sublist.map a

/-- A cell is marked or it is not. -/
theorem marked_perm_front (mark : Nat → Bool) :
    (marked mark a n ++ marked (fun j => !mark j) a n).Perm (front a n) := by
  rw [marked, marked, ← List.map_append]
  exact (List.filter_append_perm mark (List.range n)).map a

/-- The unmarked cells, split by another mark. -/
theorem marked_perm_split (mark other : Nat → Bool) :
    (marked (fun j => mark j && other j) a n ++ marked (fun j => mark j && !other j) a n).Perm
      (marked mark a n) := by
  rw [marked, marked, marked, ← List.map_append]
  refine List.Perm.map a ?_
  have := List.filter_append_perm other ((List.range n).filter mark)
  simpa only [List.filter_filter, Bool.and_comm] using this

/-- Setting a mark adds its cell. -/
theorem marked_update_perm {mark : Nat → Bool} {j : Nat} (hj : j < n) (hmark : mark j = false) :
    (marked (update mark j true) a n).Perm (a j :: marked mark a n) := by
  rw [marked, marked, ← List.map_cons]
  refine List.Perm.map a ?_
  have hnot : j ∉ (List.range n).filter mark := by simp [hmark]
  refine (List.perm_ext_iff_of_nodup (List.nodup_range.filter _)
    (List.nodup_cons.mpr ⟨hnot, List.nodup_range.filter _⟩)).mpr fun k => ?_
  by_cases hk : k = j
  · subst hk
    simp [hj]
  · simp [hk]

end

/-! ### Compaction in place -/

/-- The first `m` cells of `a₀` have been read, and the `k` to be kept are in front. -/
structure Compacted {α : Type} (keep : Nat → Bool) (a₀ a : Nat → α) (m k : Nat) : Prop where
  le : k ≤ m
  kept : front a k = marked keep a₀ m
  unread : ∀ j, m ≤ j → a j = a₀ j

namespace Compacted

variable {α : Type} {keep : Nat → Bool} {a₀ a : Nat → α} {m k : Nat}

theorem start (keep : Nat → Bool) (a : Nat → α) : Compacted keep a a 0 0 :=
  ⟨le_rfl, rfl, fun _ _ => rfl⟩

/-- A cell that is kept is written where the next one belongs. -/
theorem move (h : Compacted keep a₀ a m k) (hkeep : keep m = true) :
    Compacted keep a₀ (update a k (a m)) (m + 1) (k + 1) := by
  refine ⟨Nat.succ_le_succ h.le, ?_, fun j hj => ?_⟩
  · rw [front_push, h.kept, marked_succ, if_pos hkeep, h.unread m le_rfl]
  · have hlt : k < j := Nat.lt_of_le_of_lt h.le hj
    rw [update_of_ne hlt.ne', h.unread j (Nat.le_of_succ_le hj)]

/-- A cell that is not kept is passed over. -/
theorem skip (h : Compacted keep a₀ a m k) (hkeep : keep m = false) :
    Compacted keep a₀ a (m + 1) k := by
  refine ⟨h.le.trans (Nat.le_succ m), ?_, fun j hj => h.unread j (Nat.le_of_succ_le hj)⟩
  rw [h.kept, marked_succ, hkeep, if_neg Bool.false_ne_true, List.append_nil]

end Compacted

end Cells

import Mathlib

/-!
# Support — selecting the largest

The first turns of a selection sort: each swaps the largest of what is left to the front.  A turn
keeps the elements (`swapFirst_perm`) and puts a largest one first (`le_head_swapFirst`); so after
`k` turns the first `k` elements are in order and none of the others has a larger key
(`selectTop_spec`).
-/

namespace Selection

variable {α β : Type} [LinearOrder β] (key : α → β)

/-- The place of the first largest element among the one at `best` and those from `b` on. -/
def bestIndex (x : α) (best b : Nat) : List α → Nat
  | []      => best
  | y :: ys => if key y > key x then bestIndex y b (b + 1) ys else bestIndex x best (b + 1) ys

/-- The first element and the one behind it at `i` change places. -/
def swapFirst (x : α) (xs : List α) : Nat → α × List α
  | 0     => (x, xs)
  | i + 1 => (xs.getD i x, xs.set i x)

/-- The first `k` turns. -/
def selectTop : Nat → List α → List α
  | 0, xs          => xs
  | _ + 1, []      => []
  | k + 1, x :: xs =>
      let (y, ys) := swapFirst x xs (bestIndex key x 0 1 xs)
      y :: selectTop k ys

variable {key}

/-- The place that is found, and what stands there. -/
theorem bestIndex_spec {l : List α} {x : α} {best b : Nat} {ys : List α} (hx : l[best]? = some x)
    (hys : l.drop b = ys) :
    ∃ y, l[bestIndex key x best b ys]? = some y ∧ key x ≤ key y ∧ ∀ z ∈ ys, key z ≤ key y := by
  induction ys generalizing x best b with
  | nil => exact ⟨x, hx, le_refl _, fun _ hz => absurd hz List.not_mem_nil⟩
  | cons z zs ih =>
      have hz : l[b]? = some z := by
        rw [← List.head?_drop, hys, List.head?_cons]
      have hzs : l.drop (b + 1) = zs := by
        rw [← List.tail_drop, hys, List.tail_cons]
      rw [bestIndex]
      split
      · rename_i hlt
        obtain ⟨y, hy, hle, hall⟩ := ih hz hzs
        exact ⟨y, hy, hlt.le.trans hle, List.forall_mem_cons.mpr ⟨hle, hall⟩⟩
      · rename_i hlt
        obtain ⟨y, hy, hle, hall⟩ := ih hx hzs
        exact ⟨y, hy, hle, List.forall_mem_cons.mpr ⟨(not_lt.mp hlt).trans hle, hall⟩⟩

theorem swapFirst_perm (x : α) (xs : List α) (i : Nat) :
    List.Perm ((swapFirst x xs i).1 :: (swapFirst x xs i).2) (x :: xs) := by
  cases i with
  | zero => exact List.Perm.refl _
  | succ i => exact List.getD_set_perm_cons xs i x

theorem swapFirst_fst {x y : α} {xs : List α} {i : Nat} (h : (x :: xs)[i]? = some y) :
    (swapFirst x xs i).1 = y := by
  cases i with
  | zero => exact Option.some.inj h
  | succ i =>
      rw [List.getElem?_cons_succ] at h
      rw [swapFirst, List.getD_eq_getElem?_getD, h, Option.getD_some]

/-- A turn puts a largest element first. -/
theorem le_head_swapFirst (x : α) (xs : List α) :
    ∀ z ∈ x :: xs, key z ≤ key (swapFirst x xs (bestIndex key x 0 1 xs)).1 := by
  have hbest : ∃ y, (x :: xs)[bestIndex key x 0 1 xs]? = some y ∧ key x ≤ key y ∧
      ∀ z ∈ xs, key z ≤ key y := bestIndex_spec rfl rfl
  obtain ⟨y, hy, hle, hall⟩ := hbest
  rw [swapFirst_fst hy]
  exact List.forall_mem_cons.mpr ⟨hle, hall⟩

/-- **The first turns of a selection sort.**  The elements stay, the first `k` of them are in order,
and none of the others has a larger key. -/
theorem selectTop_spec (k : Nat) (xs : List α) :
    (selectTop key k xs).Perm xs ∧
      ((selectTop key k xs).take k).Pairwise (fun x y => key y ≤ key x) ∧
      ∀ x ∈ (selectTop key k xs).take k, ∀ y ∈ (selectTop key k xs).drop k, key y ≤ key x := by
  induction k generalizing xs with
  | zero =>
      refine ⟨List.Perm.refl _, List.Pairwise.nil, fun x hx => ?_⟩
      exact absurd hx List.not_mem_nil
  | succ k ih =>
      cases xs with
      | nil =>
          refine ⟨List.Perm.refl _, List.Pairwise.nil, fun x hx => ?_⟩
          exact absurd hx List.not_mem_nil
      | cons x xs =>
          have hperm := swapFirst_perm x xs (bestIndex key x 0 1 xs)
          have hhead : ∀ z ∈ x :: xs, key z ≤ key (swapFirst x xs (bestIndex key x 0 1 xs)).1 :=
            le_head_swapFirst x xs
          rw [selectTop]
          generalize swapFirst x xs (bestIndex key x 0 1 xs) = r at hperm hhead ⊢
          obtain ⟨y, ys⟩ := r
          obtain ⟨hrest, hsorted, hmore⟩ := ih ys
          have hfirst : ∀ z ∈ selectTop key k ys, key z ≤ key y := fun z hz =>
            hhead z (hperm.subset (List.mem_cons_of_mem _ (hrest.subset hz)))
          dsimp only
          rw [List.take_succ_cons, List.drop_succ_cons]
          refine ⟨(hrest.cons y).trans hperm, List.pairwise_cons.mpr ⟨?_, hsorted⟩,
            List.forall_mem_cons.mpr ⟨?_, hmore⟩⟩
          · exact fun z hz => hfirst z (List.mem_of_mem_take hz)
          · exact fun z hz => hfirst z (List.mem_of_mem_drop hz)

end Selection

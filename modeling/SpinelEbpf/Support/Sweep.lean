import Mathlib

/-!
# Support — Sweeps to a fixpoint

A loop that keeps going over a list of rules while some rule changes the state: `pass` is one
sweep, with the `changed` flag such loops keep, and `run` repeats it.  A rule that fires has to
lower a measure; then `run` ends in a state where no rule fires (`run_stable`), and allowing it
more sweeps than the measure makes no difference (`run_add`).  What every rule keeps, the loop
keeps (`run_induct`).
-/

namespace Sweep

variable {σ ι : Type*} (rule : ι → σ → Option σ)

/-- The body of the sweep: a rule that fires changes the state and raises the flag. -/
def visit (acc : σ × Bool) (x : ι) : σ × Bool :=
  match rule x acc.1 with
  | none    => acc
  | some s' => (s', true)

/-- One sweep over `xs`. -/
def pass (xs : List ι) (s : σ) : σ × Bool := xs.foldl (visit rule) (s, false)

/-- Sweeps over `xs` until one changes nothing, at most `n` of them. -/
def run (xs : List ι) : Nat → σ → σ
  | 0, s     => s
  | n + 1, s => if (pass rule xs s).2 then run xs n (pass rule xs s).1 else (pass rule xs s).1

/-- No rule of `xs` fires. -/
def Stable (xs : List ι) (s : σ) : Prop := ∀ x ∈ xs, rule x s = none

variable {rule} {xs : List ι} {s : σ}

theorem visit_none {acc : σ × Bool} {x : ι} (h : rule x acc.1 = none) : visit rule acc x = acc := by
  rw [visit, h]

theorem visit_some {acc : σ × Bool} {x : ι} {s' : σ} (h : rule x acc.1 = some s') :
    visit rule acc x = (s', true) := by
  rw [visit, h]

/-- A raised flag stays. -/
theorem foldl_visit_true (xs : List ι) (s : σ) : (xs.foldl (visit rule) (s, true)).2 = true := by
  induction xs generalizing s with
  | nil => rfl
  | cons x xs ih =>
      cases hx : rule x s with
      | none => rw [List.foldl_cons, visit_none hx]; exact ih s
      | some s' => rw [List.foldl_cons, visit_some hx]; exact ih s'

/-- A sweep that leaves the flag down saw one state only, in which no rule fires. -/
theorem pass_unchanged (h : (pass rule xs s).2 = false) :
    Stable rule xs s ∧ (pass rule xs s).1 = s := by
  unfold pass at *
  induction xs with
  | nil => exact ⟨fun _ hx => absurd hx (List.not_mem_nil), rfl⟩
  | cons x xs ih =>
      rw [List.foldl_cons] at h ⊢
      cases hx : rule x s with
      | none =>
          rw [visit_none hx] at h ⊢
          obtain ⟨hstable, heq⟩ := ih h
          exact ⟨List.forall_mem_cons.mpr ⟨hx, hstable⟩, heq⟩
      | some s' =>
          rw [visit_some hx, foldl_visit_true] at h
          exact absurd h (Bool.noConfusion)

section Measure

variable {μ : σ → Nat} (hμ : ∀ x s s', rule x s = some s' → μ s' < μ s)

include hμ in
theorem foldl_visit_le (xs : List ι) (acc : σ × Bool) :
    μ (xs.foldl (visit rule) acc).1 ≤ μ acc.1 := by
  induction xs generalizing acc with
  | nil => exact Nat.le_refl _
  | cons x xs ih =>
      rw [List.foldl_cons]
      refine Nat.le_trans (ih _) ?_
      cases hx : rule x acc.1 with
      | none => rw [visit_none hx]
      | some s' => rw [visit_some hx]; exact Nat.le_of_lt (hμ x acc.1 s' hx)

include hμ in
/-- A sweep that raises the flag lowers the measure. -/
theorem pass_lt (h : (pass rule xs s).2 = true) :
    μ (pass rule xs s).1 < μ s := by
  unfold pass at *
  induction xs with
  | nil => exact absurd h Bool.noConfusion
  | cons x xs ih =>
      rw [List.foldl_cons] at h ⊢
      cases hx : rule x s with
      | none => rw [visit_none hx] at h ⊢; exact ih h
      | some s' =>
          rw [visit_some hx]
          exact Nat.lt_of_le_of_lt (foldl_visit_le hμ xs (s', true)) (hμ x s s' hx)

include hμ in
/-- **The loop ends.**  With more sweeps than the measure, no rule fires at the end. -/
theorem run_stable {n : Nat} (h : μ s < n) :
    Stable rule xs (run rule xs n s) := by
  induction n generalizing s with
  | zero => exact absurd h (Nat.not_lt_zero _)
  | succ n ih =>
      rw [run]
      cases hc : (pass rule xs s).2 with
      | true =>
          have hlt := pass_lt hμ hc
          exact ih (by omega)
      | false =>
          obtain ⟨hstable, heq⟩ := pass_unchanged hc
          rwa [← heq] at hstable

include hμ in
/-- More sweeps than the measure change nothing. -/
theorem run_add {n : Nat} (h : μ s < n) (k : Nat) :
    run rule xs (n + k) s = run rule xs n s := by
  induction n generalizing s with
  | zero => exact absurd h (Nat.not_lt_zero _)
  | succ n ih =>
      rw [Nat.succ_add, run, run]
      cases hc : (pass rule xs s).2 with
      | true =>
          have hlt := pass_lt hμ hc
          exact ih (by omega)
      | false => rfl

end Measure

/-- What every rule keeps, the loop keeps. -/
theorem run_induct {P : σ → Prop} (n : Nat) (h : P s)
    (hrule : ∀ x ∈ xs, ∀ s s', P s → rule x s = some s' → P s') : P (run rule xs n s) := by
  have hfold : ∀ (ys : List ι) (acc : σ × Bool), ys ⊆ xs → P acc.1 →
      P (ys.foldl (visit rule) acc).1 := by
    intro ys
    induction ys with
    | nil => exact fun _ _ hacc => hacc
    | cons y ys ih =>
        intro acc hsub hacc
        obtain ⟨hy, hys⟩ := List.cons_subset.mp hsub
        cases hx : rule y acc.1 with
        | none => rw [List.foldl_cons, visit_none hx]; exact ih acc hys hacc
        | some s' =>
            rw [List.foldl_cons, visit_some hx]
            exact ih (s', true) hys (hrule y hy acc.1 s' hacc hx)
  have hpass (s : σ) (hs : P s) : P (pass rule xs s).1 := hfold xs (s, false) (List.Subset.refl _) hs
  induction n generalizing s with
  | zero => exact h
  | succ n ih =>
      rw [run]
      cases (pass rule xs s).2 with
      | true => exact ih (hpass s h)
      | false => exact hpass s h

end Sweep

import Mathlib

/-!
# Support — Intervals of a trace

A trace of events, some of which go out and some of which come back, with a time each. An event that
goes out opens an interval that ends at the first event from there on that comes back
(`intervals`); one that is not followed by any is `unfinished`. `elapsed` is the total length.

The lemmas say what one more event at the end of the trace does to the total and to the unfinished
ones: one that comes back ends them all (`elapsed_snoc_back`, `unfinished_snoc_back`), any other
ends none (`elapsed_snoc_away`, `unfinished_snoc_away`).
-/

namespace Stopwatch

variable {ε : Type} (out back : ε → Bool) (time : ε → Nat)

/-- The time of the first event that comes back. -/
def firstBack : List ε → Option Nat
  | [] => none
  | e :: es => if back e then some (time e) else firstBack es

/-- The intervals, each from an event that goes out to the first that comes back. -/
def intervals : List ε → List (Nat × Nat)
  | [] => []
  | e :: es =>
      (if out e then (firstBack back time (e :: es)).toList.map fun t => (time e, t) else []) ++
        intervals es

/-- The times of the events that go out and are not followed by one that comes back. -/
def unfinished : List ε → List Nat
  | [] => []
  | e :: es =>
      (if out e ∧ firstBack back time (e :: es) = none then [time e] else []) ++ unfinished es

/-- The total length of the intervals. -/
def elapsed (es : List ε) : Nat := ((intervals out back time es).map fun i => i.2 - i.1).sum

variable {out back time}

theorem firstBack_append (es fs : List ε) :
    firstBack back time (es ++ fs) = (firstBack back time es).or (firstBack back time fs) := by
  induction es with
  | nil => rfl
  | cons e es ih =>
      rw [List.cons_append, firstBack, firstBack, ih]
      split
      · rfl
      · rfl

theorem elapsed_cons (e : ε) (es : List ε) :
    elapsed out back time (e :: es) =
      (if out e then ((firstBack back time (e :: es)).map (· - time e)).getD 0 else 0) +
        elapsed out back time es := by
  simp only [elapsed, intervals, List.map_append, List.sum_append]
  congr 1
  split
  · cases firstBack back time (e :: es) with
    | none => rfl
    | some t => simp
  · rfl

/-! ### One more event that comes back -/

section Back

variable {e : ε} (hback : back e = true)
include hback

theorem firstBack_snoc_back (es : List ε) :
    firstBack back time (es ++ [e]) = some ((firstBack back time es).getD (time e)) := by
  rw [firstBack_append]
  have hsingle : firstBack back time [e] = some (time e) := by rw [firstBack, if_pos hback]
  rw [hsingle]
  cases firstBack back time es with
  | none => rfl
  | some t => rfl

theorem unfinished_snoc_back (es : List ε) : unfinished out back time (es ++ [e]) = [] := by
  induction es with
  | nil => simp [unfinished, firstBack, hback]
  | cons x es ih =>
      rw [List.cons_append, unfinished, ih, ← List.cons_append, firstBack_snoc_back hback]
      simp

/-- It ends every interval that was still open. -/
theorem elapsed_snoc_back (es : List ε) :
    elapsed out back time (es ++ [e]) =
      elapsed out back time es + ((unfinished out back time es).map (time e - ·)).sum := by
  induction es with
  | nil =>
      rw [List.nil_append, elapsed_cons, firstBack, if_pos hback]
      simp [elapsed, intervals, unfinished]
  | cons x es ih =>
      rw [List.cons_append, elapsed_cons, ih, ← List.cons_append, firstBack_snoc_back hback,
        elapsed_cons, unfinished, List.map_append, List.sum_append]
      cases hout : out x with
      | false => simp
      | true =>
          cases firstBack back time (x :: es) with
          | none => simp; omega
          | some t => simp; omega

end Back

/-! ### One more event that does not come back -/

section Away

variable {e : ε} (hback : back e = false)
include hback

theorem firstBack_snoc_away (es : List ε) :
    firstBack back time (es ++ [e]) = firstBack back time es := by
  rw [firstBack_append]
  have hsingle : firstBack back time [e] = none := by simp [firstBack, hback]
  rw [hsingle, Option.or_none]

/-- It ends no interval. -/
theorem elapsed_snoc_away (es : List ε) :
    elapsed out back time (es ++ [e]) = elapsed out back time es := by
  induction es with
  | nil => simp [elapsed, intervals, firstBack, hback]
  | cons x es ih =>
      rw [List.cons_append, elapsed_cons, ih, ← List.cons_append, firstBack_snoc_away hback,
        elapsed_cons]

/-- It stays open itself, if it goes out. -/
theorem unfinished_snoc_away (es : List ε) :
    unfinished out back time (es ++ [e]) =
      unfinished out back time es ++ if out e then [time e] else [] := by
  induction es with
  | nil => simp [unfinished, firstBack, hback]
  | cons x es ih =>
      rw [List.cons_append, unfinished, ih, ← List.cons_append, firstBack_snoc_away hback,
        unfinished, List.append_assoc]

end Away

end Stopwatch

import Mathlib

/-!
# Support — Runs that may stop early

The result of running a piece of a program from a state is an `Outcome`, the value it came to or the
early exit it took, with the state after it.  `andThen` continues a run that has not stopped,
`repeatFrom` is a counted loop, and `Throughout` says something of the state at the start of each of
its rounds.

`Related Q E` compares two such results, of two languages with states of their own: both came to
a value and `Q` holds, or both stopped early and `E` holds.  Its rules follow the shape of the
runs (`Related.andThen`, `Related.repeatFrom`), so that a simulation can be put together from
those of its parts.
-/

/-- A value, or an early exit. -/
inductive Outcome (ρ α : Type*) where
  | ok (a : α)
  | exit (r : ρ)

namespace Outcome

variable {ρ ρ' α β γ δ σ τ : Type*}

/-- Continue, unless the run has stopped. -/
def andThen (r : Outcome ρ α × σ) (k : α → σ → Outcome ρ β × σ) : Outcome ρ β × σ :=
  match r with
  | (.ok a, s)   => k a s
  | (.exit e, s) => (.exit e, s)

/-- `n` rounds of `body`, numbered from `i`. -/
def repeatFrom (body : Nat → σ → Outcome ρ Unit × σ) : Nat → Nat → σ → Outcome ρ Unit × σ
  | 0, _, s     => (.ok (), s)
  | n + 1, i, s => andThen (body i s) fun _ s => repeatFrom body n (i + 1) s

/-- `P` holds wherever one of the rounds starts. -/
def Throughout (P : Nat → σ → Prop) (body : Nat → σ → Outcome ρ Unit × σ) : Nat → Nat → σ → Prop
  | 0, _, _     => True
  | n + 1, i, s => P i s ∧ ∀ s', body i s = (.ok (), s') → Throughout P body n (i + 1) s'

@[simp] theorem andThen_ok (a : α) (s : σ) (k : α → σ → Outcome ρ β × σ) :
    andThen (.ok a, s) k = k a s := rfl

@[simp] theorem andThen_exit (e : ρ) (s : σ) (k : α → σ → Outcome ρ β × σ) :
    andThen (.exit e, s) k = (.exit e, s) := rfl

theorem andThen_assoc (r : Outcome ρ α × σ) (k : α → σ → Outcome ρ β × σ)
    (l : β → σ → Outcome ρ γ × σ) :
    andThen (andThen r k) l = andThen r fun a s => andThen (k a s) l := by
  obtain ⟨a | e, s⟩ := r <;> rfl

@[simp] theorem andThen_unit (r : Outcome ρ Unit × σ) : andThen r (fun _ s => (.ok (), s)) = r := by
  obtain ⟨a | e, s⟩ := r <;> rfl

theorem andThen_value (r : Outcome ρ α × σ) : andThen r (fun a s => (.ok a, s)) = r := by
  obtain ⟨a | e, s⟩ := r <;> rfl

/-- Two results correspond. -/
def Related (Q : α → β → σ → τ → Prop) (E : ρ → ρ' → σ → τ → Prop) :
    Outcome ρ α × σ → Outcome ρ' β × τ → Prop
  | (.ok a, s), (.ok b, t) => Q a b s t
  | (.exit r, s), (.exit r', t) => E r r' s t
  | _, _ => False

namespace Related

variable {x : Outcome ρ α × σ} {y : Outcome ρ' β × τ} {Q : α → β → σ → τ → Prop}
  {Q' : γ → δ → σ → τ → Prop} {E : ρ → ρ' → σ → τ → Prop}

theorem mono {Q₁ : α → β → σ → τ → Prop} (h : Related Q E x y)
    (hQ : ∀ a b s t, Q a b s t → Q₁ a b s t) : Related Q₁ E x y := by
  obtain ⟨a | r, s⟩ := x <;> obtain ⟨b | r', t⟩ := y
  · exact hQ a b s t h
  · exact h
  · exact h
  · exact h

/-- Where no exits correspond, both runs came to a value. -/
theorem ok (h : Related Q E x y) (hE : ∀ r r' s t, ¬ E r r' s t) :
    ∃ a b s t, x = (.ok a, s) ∧ y = (.ok b, t) ∧ Q a b s t := by
  obtain ⟨a | r, s⟩ := x <;> obtain ⟨b | r', t⟩ := y
  · exact ⟨a, b, s, t, rfl, rfl, h⟩
  · exact h.elim
  · exact h.elim
  · exact (hE r r' s t h).elim

/-- Corresponding runs, with what they came to. -/
theorem run (h : Related Q E x y) :
    Related (fun a b s t => Q a b s t ∧ x = (.ok a, s) ∧ y = (.ok b, t)) E x y := by
  obtain ⟨a | r, s⟩ := x <;> obtain ⟨b | r', t⟩ := y
  · exact ⟨h, rfl, rfl⟩
  · exact h
  · exact h
  · exact h

/-- Continuations of corresponding runs. -/
theorem andThen {f : α → σ → Outcome ρ γ × σ} {g : β → τ → Outcome ρ' δ × τ} (h : Related Q E x y)
    (hk : ∀ a b s t, Q a b s t → Related Q' E (f a s) (g b t)) :
    Related Q' E (Outcome.andThen x f) (Outcome.andThen y g) := by
  obtain ⟨a | r, s⟩ := x <;> obtain ⟨b | r', t⟩ := y
  · exact hk a b s t h
  · exact h.elim
  · exact h.elim
  · exact h

/-- The first language goes on where the second has nothing to do. -/
theorem andThen_left {f : α → σ → Outcome ρ γ × σ} {Q₁ : γ → β → σ → τ → Prop} (h : Related Q E x y)
    (hk : ∀ a b s t, Q a b s t → Related Q₁ E (f a s) ((.ok b, t) : Outcome ρ' β × τ)) :
    Related Q₁ E (Outcome.andThen x f) y := by
  rw [← andThen_value y]
  exact h.andThen hk

/-- Counted loops whose rounds keep a relation, where `P` holds at the start of each. -/
theorem repeatFrom {I : σ → τ → Prop} {P : Nat → σ → Prop} {f : Nat → σ → Outcome ρ Unit × σ}
    {g : Nat → τ → Outcome ρ' Unit × τ}
    (hround : ∀ i s t, I s t → P i s → Related (fun _ _ => I) E (f i s) (g i t)) (n i : Nat) {s : σ}
    {t : τ} (h : I s t) (hP : Throughout P f n i s) :
    Related (fun _ _ => I) E (Outcome.repeatFrom f n i s) (Outcome.repeatFrom g n i t) := by
  induction n generalizing i s t with
  | zero => exact h
  | succ n ih =>
      exact (hround i s t h hP.1).run.andThen fun _ _ s' _ ⟨h', hrun, _⟩ =>
        ih (i + 1) h' (hP.2 s' hrun)

end Related

end Outcome

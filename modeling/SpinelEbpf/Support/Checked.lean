import Mathlib

/-!
# Support — Checked computations

What a computation that ends well says about its first step.
-/

namespace Checked

variable {ε α β γ : Type} {x : Except ε α}

/-- A step that is followed by others went well, and so did they. -/
theorem bind_ok {f : α → Except ε β} {r : β} (h : (x >>= f) = .ok r) :
    ∃ a, x = .ok a ∧ f a = .ok r := by
  cases x with
  | error e => cases h
  | ok a => exact ⟨a, rfl, h⟩

/-- A step whose result is only put into its place. -/
theorem bind_ok_last {g : α → β} {r : β} (h : (x >>= fun a => .ok (g a)) = .ok r) :
    ∃ a, x = .ok a ∧ r = g a := by
  obtain ⟨a, ha, h⟩ := bind_ok h
  exact ⟨a, ha, (Except.ok.inj h).symm⟩

theorem bind_ok_last₂ {y : α → Except ε β} {g : α → β → γ} {r : γ}
    (h : (x >>= fun a => y a >>= fun b => .ok (g a b)) = .ok r) :
    ∃ a b, x = .ok a ∧ y a = .ok b ∧ r = g a b := by
  obtain ⟨a, ha, h⟩ := bind_ok h
  obtain ⟨b, hb, hr⟩ := bind_ok_last h
  exact ⟨a, b, ha, hb, hr⟩

theorem ok_bind (a : α) (f : α → Except ε β) :
    ((.ok a : Except ε α) >>= f) = f a := rfl

end Checked

import Mathlib

/-!
# Support — single-producer single-consumer rings

A ring of `cap` slots with two free-running `w`-bit indices.  `Window cap slots sent taken` says
that the ring holds exactly the part of the history `sent` from position `taken` on: position `i`
of the history lies in slot `i % cap`.  Sending and taking keep it (`Window.push`,
`Window.advance`), and so does any write to the slot that is free next (`Window.scratch`).

The indices are the two positions modulo `2 ^ w`.  Where `cap` divides `2 ^ w` an index selects
the slot of its position (`toNat_ofNat_mod`), and where at most `2 ^ w` positions are in play the
difference of two indices is the difference of the positions (`toNat_sub_ofNat`).
-/

namespace Spsc

variable {α : Type} {cap taken : Nat} {slots : Nat → α} {sent : List α}

/-- A part of the history and the record after it. -/
theorem prefix_snoc {l l' : List α} {x : α} (h : l <+: l') (hx : l'[l.length]? = some x) :
    l ++ [x] <+: l' := by
  obtain ⟨rest, rfl⟩ := h
  rw [List.getElem?_append_right (Nat.le_refl _), Nat.sub_self] at hx
  cases rest with
  | nil => simp at hx
  | cons y rest =>
      obtain rfl : y = x := by simpa using hx
      exact ⟨rest, by simp⟩

/-- The ring holds the history `sent` from position `taken` on. -/
structure Window (cap : Nat) (slots : Nat → α) (sent : List α) (taken : Nat) : Prop where
  taken_le : taken ≤ sent.length
  fits : sent.length ≤ taken + cap
  slot : ∀ i x, taken ≤ i → sent[i]? = some x → slots (i % cap) = x

theorem Window.empty : Window cap slots [] 0 where
  taken_le := Nat.le_refl _
  fits := Nat.zero_le _
  slot i x _ h := by simp at h

/-- Two positions of one window lie in different slots. -/
theorem mod_ne_mod {i j : Nat} (hij : i < j) (hj : j < i + cap) : i % cap ≠ j % cap := by
  intro h
  have hdvd : cap ∣ j - i := (Nat.modEq_iff_dvd' (Nat.le_of_lt hij)).mp h
  have := Nat.le_of_dvd (by omega) hdvd
  omega

/-- A write to the next free slot disturbs nothing. -/
theorem Window.scratch (h : Window cap slots sent taken) (hroom : sent.length < taken + cap)
    (y : α) : Window cap (Function.update slots (sent.length % cap) y) sent taken where
  taken_le := h.taken_le
  fits := h.fits
  slot i x hi hx := by
    have hlt : i < sent.length := (List.getElem?_eq_some_iff.mp hx).1
    rw [Function.update_of_ne (mod_ne_mod hlt (by omega))]
    exact h.slot i x hi hx

/-- Sending: the record is in the next free slot already. -/
theorem Window.push {x : α} (h : Window cap slots sent taken)
    (hroom : sent.length < taken + cap) (hx : slots (sent.length % cap) = x) :
    Window cap slots (sent ++ [x]) taken where
  taken_le := by have := h.taken_le; simp only [List.length_append, List.length_singleton]; omega
  fits := by simp only [List.length_append, List.length_singleton]; omega
  slot i y hi hy := by
    rcases Nat.lt_or_ge i sent.length with hlt | hge
    · rw [List.getElem?_append_left hlt] at hy
      exact h.slot i y hi hy
    · rw [List.getElem?_append_right hge] at hy
      obtain ⟨hz, rfl⟩ := List.getElem?_eq_some_iff.mp hy
      have : i = sent.length := by simp at hz; omega
      simpa [this] using hx

/-- Taking. -/
theorem Window.advance {n : Nat} (h : Window cap slots sent taken) (htn : taken ≤ n)
    (hn : n ≤ sent.length) : Window cap slots sent n where
  taken_le := hn
  fits := by have := h.fits; omega
  slot i x hi hx := h.slot i x (Nat.le_trans htn hi) hx

/-- The window, read off slot by slot, is the rest of the history. -/
theorem Window.read (h : Window cap slots sent taken) :
    (List.range (sent.length - taken)).map (fun i => slots ((taken + i) % cap)) =
      sent.drop taken := by
  refine List.ext_getElem (by simp) fun i h₁ h₂ => ?_
  simp only [List.length_map, List.length_range] at h₁
  rw [List.getElem_map, List.getElem_range, List.getElem_drop]
  exact h.slot _ _ (Nat.le_add_right _ _) (List.getElem?_eq_getElem (by omega))

/-! ### Free-running indices -/

section Index

variable {w : Nat}

theorem toNat_ofNat_mod (hcap : cap ∣ 2 ^ w) (i : Nat) :
    (BitVec.ofNat w i).toNat % cap = i % cap := by
  rw [BitVec.toNat_ofNat, Nat.mod_mod_of_dvd _ hcap]

theorem toNat_sub_ofNat {i j : Nat} (hij : i ≤ j) (hj : j < i + 2 ^ w) :
    (BitVec.ofNat w j - BitVec.ofNat w i).toNat = j - i := by
  obtain ⟨d, rfl⟩ := Nat.exists_eq_add_of_le hij
  have hd : BitVec.ofNat w (i + d) - BitVec.ofNat w i = BitVec.ofNat w d := by
    rw [BitVec.ofNat_add, BitVec.add_comm, BitVec.add_sub_cancel]
  rw [hd, BitVec.toNat_ofNat, Nat.mod_eq_of_lt (by omega)]
  omega

end Index

end Spsc

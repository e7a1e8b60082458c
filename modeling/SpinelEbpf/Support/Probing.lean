import Mathlib

/-!
# Support — Open addressing

A table of slots, each with a key and a value.  A key is looked for along its probe path; a slot
whose key is `empty` has never been used and one whose key is `tomb` has been given up.  The other
keys are live.

`Sound` is the invariant: a live key stands in one slot at most, which its path reaches without
passing an empty slot.  Then the operations are those of a map: `Has t k v`, that `k` has the value
`v`, changes at the key that is stored or given up and nowhere else (`has_put_iff`,
`has_drop_iff`), and the search finds what there is (`find_eq_some_iff`).
-/

namespace Probing

open Function

/-- Slots, keys and values. -/
structure Table (σ κ ν : Type*) where
  key : σ → κ
  val : σ → ν

/-- The reserved keys, and where to look for the others. -/
structure Layout (σ κ : Type*) where
  empty : κ
  tomb : κ
  path : κ → List σ
  apart : tomb ≠ empty

variable {σ κ ν : Type*} {L : Layout σ κ} {t : Table σ κ ν} {k : κ} {s : σ} {v : ν}

/-- A key that may be stored. -/
structure Layout.Live (L : Layout σ κ) (k : κ) : Prop where
  ne_empty : k ≠ L.empty
  ne_tomb : k ≠ L.tomb

/-- `k` and `v` in slot `s`. -/
def Table.put [DecidableEq σ] (t : Table σ κ ν) (s : σ) (k : κ) (v : ν) : Table σ κ ν :=
  ⟨update t.key s k, update t.val s v⟩

/-- The first slot on the path of `k` that is empty or has `k`. -/
def room [DecidableEq κ] (L : Layout σ κ) (t : Table σ κ ν) (k : κ) : Option σ :=
  (L.path k).find? fun s => t.key s = L.empty ∨ t.key s = k

/-- The first slot on the path of `k` that has `k`. -/
def find [DecidableEq κ] (L : Layout σ κ) (t : Table σ κ ν) (k : κ) : Option σ :=
  (L.path k).find? fun s => t.key s = k

/-- The path of `k` reaches `s` without passing an empty slot. -/
def Reaches (L : Layout σ κ) (t : Table σ κ ν) (k : κ) (s : σ) : Prop :=
  ∃ before after, L.path k = before ++ s :: after ∧ ∀ s' ∈ before, t.key s' ≠ L.empty

structure Sound (L : Layout σ κ) (t : Table σ κ ν) : Prop where
  reaches : ∀ s, L.Live (t.key s) → Reaches L t (t.key s) s
  unique : ∀ s s', L.Live (t.key s) → t.key s = t.key s' → s = s'

/-- `k` has the value `v`. -/
def Has (t : Table σ κ ν) (k : κ) (v : ν) : Prop := ∃ s, t.key s = k ∧ t.val s = v

theorem sound_of_empty (h : ∀ s, t.key s = L.empty) : Sound L t :=
  ⟨fun s hs => absurd (h s) hs.ne_empty, fun s _ hs _ => absurd (h s) hs.ne_empty⟩

theorem not_has_of_empty (h : ∀ s, t.key s = L.empty) (hk : L.Live k) : ¬ Has t k v := by
  rintro ⟨s, rfl, -⟩
  exact hk.ne_empty (h s)

/-- A key has one value. -/
theorem Sound.has_inj (h : Sound L t) (hk : L.Live k) {v' : ν} (hv : Has t k v) (hv' : Has t k v') :
    v = v' := by
  obtain ⟨s, rfl, rfl⟩ := hv
  obtain ⟨s', hs', rfl⟩ := hv'
  rw [h.unique s s' hk hs'.symm]

/-! ### Searching -/

section Searching

variable [DecidableEq κ]

/-- The search finds the slot of a key. -/
theorem find_eq_some_iff (h : Sound L t) (hk : L.Live k) : find L t k = some s ↔ t.key s = k := by
  constructor
  · intro hfind
    simpa using List.find?_some hfind
  · rintro rfl
    obtain ⟨before, after, hpath, -⟩ := h.reaches s hk
    have hmem : s ∈ L.path (t.key s) := by
      rw [hpath]
      exact List.mem_append_right _ List.mem_cons_self
    cases hfind : find L t (t.key s) with
    | none => exact absurd (decide_eq_true rfl) (List.find?_eq_none.mp hfind s hmem)
    | some s' =>
        have hs' : t.key s' = t.key s := by simpa using List.find?_some hfind
        rw [h.unique s s' hk hs'.symm]

theorem find_eq_none_iff (h : Sound L t) (hk : L.Live k) :
    find L t k = none ↔ ∀ v, ¬ Has t k v := by
  constructor
  · rintro hnone v ⟨s, hs, -⟩
    rw [(find_eq_some_iff h hk).mpr hs] at hnone
    cases hnone
  · intro hnot
    cases hfind : find L t k with
    | none => rfl
    | some s => exact absurd ⟨s, (find_eq_some_iff h hk).mp hfind, rfl⟩ (hnot (t.val s))

/-- What the search for room finds: an empty slot, unless the key has one already. -/
theorem room_spec (hroom : room L t k = some s) :
    (t.key s = L.empty ∨ t.key s = k) ∧ ∃ before after, L.path k = before ++ s :: after ∧
      ∀ s' ∈ before, t.key s' ≠ L.empty ∧ t.key s' ≠ k := by
  obtain ⟨hs, before, after, hpath, hbefore⟩ := List.find?_eq_some_iff_append.mp hroom
  refine ⟨by simpa using hs, before, after, hpath, fun s' hs' => ?_⟩
  have := hbefore s' hs'
  simpa [not_or] using this

/-- A key that has a slot is not given another. -/
theorem Sound.room_unique (h : Sound L t) (hk : L.Live k) (hroom : room L t k = some s) {s' : σ}
    (hs' : t.key s' = k) : s' = s := by
  obtain ⟨hs, before, after, hpath, hbefore⟩ := room_spec hroom
  subst hs'
  obtain ⟨before', after', hpath', hbefore'⟩ := h.reaches s' hk
  -- of two slots on one path, either is before the other unless they are the same
  rcases List.append_eq_append_iff.mp (hpath.symm.trans hpath') with
    ⟨rest, hrest, hcons⟩ | ⟨rest, hrest, hcons⟩
  · cases rest with
    | nil => exact (List.cons.inj hcons).1.symm
    | cons x rest =>
        obtain ⟨rfl, -⟩ := List.cons.inj hcons
        have hmem : s ∈ before' := by
          rw [hrest]
          exact List.mem_append_right _ List.mem_cons_self
        exact (h.unique s s' (hs.resolve_left (hbefore' s hmem) ▸ hk)
          (hs.resolve_left (hbefore' s hmem))).symm
  · cases rest with
    | nil => exact (List.cons.inj hcons).1
    | cons x rest =>
        obtain ⟨rfl, -⟩ := List.cons.inj hcons
        have hmem : s' ∈ before := by
          rw [hrest]
          exact List.mem_append_right _ List.mem_cons_self
        exact absurd rfl (hbefore s' hmem).2

end Searching

/-! ### Writing a slot -/

section Writing

variable [DecidableEq σ]

theorem put_key_self (x : κ) : (t.put s x v).key s = x := update_self ..

theorem put_key_of_ne {s' : σ} (h : s' ≠ s) (x : κ) : (t.put s x v).key s' = t.key s' :=
  update_of_ne h ..

/-- No slot becomes empty, so what a path reaches stays reached. -/
theorem Reaches.put {s' : σ} {x : κ} (h : Reaches L t k s') (hx : x ≠ L.empty) :
    Reaches L (t.put s x v) k s' := by
  obtain ⟨before, after, hpath, hbefore⟩ := h
  refine ⟨before, after, hpath, fun s'' hs'' => ?_⟩
  by_cases heq : s'' = s
  · rw [heq, put_key_self]
    exact hx
  · rw [put_key_of_ne heq]
    exact hbefore s'' hs''

/-- Another key's values. -/
theorem has_put_other {k' : κ} {v' : ν} {x : κ} (hx : x ≠ k') (hs : t.key s ≠ k') :
    Has (t.put s x v) k' v' ↔ Has t k' v' := by
  constructor
  · rintro ⟨s', hkey, hval⟩
    have hne : s' ≠ s := by
      rintro rfl
      exact hx ((put_key_self x).symm.trans hkey)
    exact ⟨s', (put_key_of_ne hne x).symm.trans hkey,
      (update_of_ne hne _ _).symm.trans hval⟩
  · rintro ⟨s', hkey, hval⟩
    have hne : s' ≠ s := by
      rintro rfl
      exact hs hkey
    exact ⟨s', (put_key_of_ne hne x).trans hkey, (update_of_ne hne _ _).trans hval⟩

/-- Storing a key keeps the invariant. -/
theorem Sound.put [DecidableEq κ] (h : Sound L t) (hk : L.Live k) (hroom : room L t k = some s)
    (v : ν) : Sound L (t.put s k v) := by
  obtain ⟨hs, before, after, hpath, hbefore⟩ := room_spec hroom
  refine ⟨fun s' hlive => ?_, fun s₁ s₂ hlive heq => ?_⟩
  · by_cases hs' : s' = s
    · subst hs'
      rw [put_key_self]
      exact Reaches.put ⟨before, after, hpath, fun s' hs' => (hbefore s' hs').1⟩ hk.ne_empty
    · rw [put_key_of_ne hs'] at hlive ⊢
      exact (h.reaches s' hlive).put hk.ne_empty
  · -- the slots of `k` are `s` alone, before and after
    have hone : ∀ s', (t.put s k v).key s' = k → s' = s := by
      intro s' hkey
      by_cases hs' : s' = s
      · exact hs'
      · rw [put_key_of_ne hs'] at hkey
        exact h.room_unique hk hroom hkey
    by_cases hk₁ : (t.put s k v).key s₁ = k
    · rw [hone s₁ hk₁, hone s₂ (heq.symm.trans hk₁)]
    · have hne₁ : s₁ ≠ s := by
        rintro rfl
        exact hk₁ (put_key_self k)
      have hne₂ : s₂ ≠ s := by
        rintro rfl
        exact hk₁ (heq.trans (put_key_self k))
      rw [put_key_of_ne hne₁] at hlive heq
      rw [put_key_of_ne hne₂] at heq
      exact h.unique s₁ s₂ hlive heq

/-- **Storing is an update of the map.** -/
theorem has_put_iff [DecidableEq κ] (h : Sound L t) (hk : L.Live k) (hroom : room L t k = some s)
    {k' : κ} {v' : ν} (hk' : L.Live k') :
    Has (t.put s k v) k' v' ↔ if k' = k then v' = v else Has t k' v' := by
  have hsound := h.put hk hroom v
  have hnew : Has (t.put s k v) k v := ⟨s, put_key_self k, update_self ..⟩
  split
  · rename_i heq
    subst heq
    exact ⟨fun hv' => hsound.has_inj hk hv' hnew, fun hv' => hv' ▸ hnew⟩
  · rename_i hne
    refine has_put_other (Ne.symm hne) ?_
    rcases (room_spec hroom).1 with hs | hs
    · exact hs ▸ hk'.ne_empty.symm
    · exact hs ▸ Ne.symm hne

/-- Giving up a slot keeps the invariant. -/
theorem Sound.drop (h : Sound L t) (s : σ) (v : ν) : Sound L (t.put s L.tomb v) := by
  have hother : ∀ s', L.Live ((t.put s L.tomb v).key s') → s' ≠ s := by
    rintro s' hlive rfl
    exact hlive.ne_tomb (put_key_self L.tomb)
  refine ⟨fun s' hlive => ?_, fun s₁ s₂ hlive heq => ?_⟩
  · have hne := hother s' hlive
    rw [put_key_of_ne hne] at hlive ⊢
    exact (h.reaches s' hlive).put L.apart
  · have hne₁ := hother s₁ hlive
    have hne₂ := hother s₂ (heq ▸ hlive)
    rw [put_key_of_ne hne₁] at hlive heq
    rw [put_key_of_ne hne₂] at heq
    exact h.unique s₁ s₂ hlive heq

/-- **Giving up the slot of a key removes it from the map.** -/
theorem has_drop_iff (h : Sound L t) (hk : L.Live k) (hs : t.key s = k) {k' : κ} {v' : ν}
    (hk' : L.Live k') : Has (t.put s L.tomb v) k' v' ↔ k' ≠ k ∧ Has t k' v' := by
  by_cases heq : k' = k
  · refine iff_of_false ?_ fun hc => hc.1 heq
    rintro ⟨s', hkey, -⟩
    have hne : s' ≠ s := by
      rintro rfl
      exact hk'.ne_tomb (hkey.symm.trans (put_key_self L.tomb))
    rw [put_key_of_ne hne, heq] at hkey
    exact hne (h.unique s' s (hkey ▸ hk) (hkey.trans hs.symm))
  · rw [has_put_other hk'.ne_tomb.symm (fun hc => heq (hc.symm.trans hs))]
    exact (and_iff_right heq).symm

end Writing

end Probing

import Mathlib.Data.List.Nodup

/-!
# Support — Rows matched by a key

Two versions of a table are compared row by row: an old row is matched with the new row of its key.
`Kept key R old new` says that every old row has a new one of its key which `R` relates it to.  It
inherits reflexivity and transitivity from `R` (`Kept.refl`, `Kept.trans`).

A program that compares the tables looks a row up (`find?` or `lookup`) and stays silent when there
is none.  With distinct keys that is `Kept`: `kept_iff_find` for a loop over the old rows,
`kept_iff_lookup` for one over the new rows.
-/

namespace Keyed

variable {α κ : Type} {key : α → κ} {R : α → α → Prop} {old mid new : List α}

/-- Every old row has a new row of its key, related to it. -/
def Kept (key : α → κ) (R : α → α → Prop) (old new : List α) : Prop :=
  ∀ o ∈ old, ∃ n ∈ new, key n = key o ∧ R o n

theorem Kept.refl (h : ∀ x ∈ old, R x x) : Kept key R old old :=
  fun o ho => ⟨o, ho, rfl, h o ho⟩

theorem Kept.trans (h₁ : Kept key R old mid) (h₂ : Kept key R mid new)
    (hR : ∀ x y z, R x y → R y z → R x z) : Kept key R old new := by
  intro o ho
  obtain ⟨m, hm, hkm, hom⟩ := h₁ o ho
  obtain ⟨n, hn, hkn, hmn⟩ := h₂ m hm
  exact ⟨n, hn, hkn.trans hkm, hR o m n hom hmn⟩

section Find

variable [DecidableEq κ]

/-- With distinct keys, looking a row's key up finds the row. -/
theorem find?_eq_some_of_mem (hnodup : (new.map key).Nodup) {n : α} (hn : n ∈ new) :
    new.find? (fun x => key x = key n) = some n := by
  cases hfind : new.find? fun x => key x = key n with
  | none => exact absurd (decide_eq_true rfl) (List.find?_eq_none.mp hfind n hn)
  | some m =>
      have hm : m ∈ new := List.mem_of_find?_eq_some hfind
      have hkey : key m = key n := by simpa using List.find?_some hfind
      rw [List.inj_on_of_nodup_map hnodup hm hn hkey]

/-- A loop over the old rows that looks each up in the new ones, and whose keys are all there. -/
theorem kept_iff_find (hnodup : (new.map key).Nodup) :
    Kept key R old new ↔ old.map key ⊆ new.map key ∧
      ∀ o ∈ old, ∀ n, new.find? (fun x => key x = key o) = some n → R o n := by
  constructor
  · intro h
    refine ⟨?_, fun o ho n hfind => ?_⟩
    · intro k hk
      obtain ⟨o, ho, rfl⟩ := List.mem_map.mp hk
      obtain ⟨n, hn, hkey, -⟩ := h o ho
      exact List.mem_map.mpr ⟨n, hn, hkey⟩
    · obtain ⟨m, hm, hkey, hR⟩ := h o ho
      rw [← hkey, find?_eq_some_of_mem hnodup hm] at hfind
      exact Option.some.inj hfind ▸ hR
  · rintro ⟨hkeys, hrows⟩ o ho
    obtain ⟨n, hn, hkey⟩ := List.mem_map.mp (hkeys (List.mem_map_of_mem ho))
    refine ⟨n, hn, hkey, hrows o ho n ?_⟩
    rw [← hkey]
    exact find?_eq_some_of_mem hnodup hn

end Find

section Lookup

variable {ι β : Type} [DecidableEq ι] {rows rows' : List (ι × β)} {Q : ι × β → ι × β → Prop}

/-- With distinct keys, a lookup finds a row exactly when it is there. -/
theorem lookup_eq_some_iff (hnodup : (rows.map Prod.fst).Nodup) {k : ι} {v : β} :
    rows.lookup k = some v ↔ (k, v) ∈ rows := by
  constructor
  · intro h
    obtain ⟨front, back, rfl, -⟩ := List.lookup_eq_some_iff.mp h
    exact List.mem_append_right front List.mem_cons_self
  · intro h
    obtain ⟨front, back, rfl⟩ := List.append_of_mem h
    refine List.lookup_eq_some_iff.mpr ⟨front, back, rfl, fun p hp => ?_⟩
    rw [List.map_append, List.map_cons] at hnodup
    have hne : p.1 ≠ k := fun heq =>
      (List.nodup_append.mp hnodup).2.2 p.1 (List.mem_map_of_mem hp) k List.mem_cons_self heq
    simpa using Ne.symm hne

/-- A loop over the new rows that looks each up in the old ones. -/
theorem kept_iff_lookup (hold : (rows.map Prod.fst).Nodup) (hnew : (rows'.map Prod.fst).Nodup) :
    Kept Prod.fst Q rows rows' ↔ rows.map Prod.fst ⊆ rows'.map Prod.fst ∧
      ∀ n ∈ rows', ∀ v, rows.lookup n.1 = some v → Q (n.1, v) n := by
  constructor
  · intro h
    refine ⟨?_, fun n hn v hv => ?_⟩
    · intro k hk
      obtain ⟨o, ho, rfl⟩ := List.mem_map.mp hk
      obtain ⟨n, hn, hkey, -⟩ := h o ho
      exact List.mem_map.mpr ⟨n, hn, hkey⟩
    · obtain ⟨m, hm, hkey, hQ⟩ := h (n.1, v) ((lookup_eq_some_iff hold).mp hv)
      exact List.inj_on_of_nodup_map hnew hm hn hkey ▸ hQ
  · rintro ⟨hkeys, hrows⟩ o ho
    obtain ⟨n, hn, hkey⟩ := List.mem_map.mp (hkeys (List.mem_map_of_mem ho))
    refine ⟨n, hn, hkey, ?_⟩
    have hlook : rows.lookup n.1 = some o.2 := by
      rw [hkey]
      exact (lookup_eq_some_iff hold).mpr ho
    simpa only [hkey] using hrows n hn o.2 hlook

end Lookup

end Keyed

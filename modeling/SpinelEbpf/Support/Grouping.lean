import Mathlib

/-!
# Support — grouping by a key

A table has an entry for each key that was met.  An event looks its key up from the front, appends
an entry if there is none, and updates the entry (`record`).  After any events, every key that was
met has one entry, and the entry is what its own events make of a new one (`grouped`).
-/

namespace Grouping

/-- Tests that agree on the entries find the same one. -/
theorem findIdx?_congr {α : Type} {p q : α → Bool} {xs : List α} (h : ∀ x ∈ xs, p x = q x) :
    xs.findIdx? p = xs.findIdx? q := by
  rw [← Function.id_comp p, ← Function.id_comp q, ← List.findIdx?_map, ← List.findIdx?_map,
    List.map_congr_left h]

variable {ε κ ω : Type} [DecidableEq κ]

/-- How a table is kept: the key of an entry and of an event, the entry an event appends, and what
an event does to its entry. -/
structure Rule (ε κ ω : Type) where
  key : ε → κ
  keyOf : ω → κ
  new : ω → ε
  update : ω → ε → ε
  key_new : ∀ e, key (new e) = keyOf e
  key_update : ∀ e x, key (update e x) = key x

variable (R : Rule ε κ ω)

/-- One event. -/
def Rule.record (e : ω) : List ε → List ε
  | []      => [R.update e (R.new e)]
  | x :: xs => if R.key x = R.keyOf e then R.update e x :: xs else x :: Rule.record e xs

/-- The events, in order. -/
def Rule.run (events : List ω) (table : List ε) : List ε :=
  events.foldl (fun table e => R.record e table) table

/-- The events of a key. -/
def Rule.ofKey (events : List ω) (k : κ) : List ω := events.filter fun e => R.keyOf e = k

/-- The updates of some events, on an entry. -/
def Rule.updates (events : List ω) (x : ε) : ε := events.foldl (fun x e => R.update e x) x

/-- What a table holds after some events. -/
structure Rule.Grouped (events : List ω) (table : List ε) : Prop where
  nodup : (table.map R.key).Nodup
  mem_iff : ∀ k, k ∈ table.map R.key ↔ k ∈ events.map R.keyOf
  entry : ∀ x ∈ table, ∃ e es, R.ofKey events (R.key x) = e :: es ∧
    x = R.updates (e :: es) (R.new e)

variable {R} {table : List ε}

/-- An event by the place of its entry. -/
theorem Rule.record_eq (e : ω) (table : List ε) :
    R.record e table =
      match table.findIdx? fun x => R.key x = R.keyOf e with
      | some i => table.modify i (R.update e)
      | none   => table ++ [R.update e (R.new e)] := by
  induction table with
  | nil => rfl
  | cons x xs ih =>
      rw [Rule.record, List.findIdx?_cons]
      by_cases hx : R.key x = R.keyOf e
      · simp [hx]
      · rw [if_neg hx, ih]
        cases xs.findIdx? fun x => R.key x = R.keyOf e with
        | none => simp [hx]
        | some i => simp [hx]

theorem Rule.map_key_record (e : ω) (table : List ε) :
    (R.record e table).map R.key =
      if R.keyOf e ∈ table.map R.key then table.map R.key
      else table.map R.key ++ [R.keyOf e] := by
  induction table with
  | nil => simp [Rule.record, R.key_update, R.key_new]
  | cons x xs ih =>
      rw [Rule.record, List.map_cons]
      by_cases hx : R.key x = R.keyOf e
      · rw [if_pos hx, if_pos (hx ▸ List.mem_cons_self), List.map_cons, R.key_update]
      · rw [if_neg hx, List.map_cons, ih]
        by_cases hmem : R.keyOf e ∈ xs.map R.key
        · rw [if_pos hmem, if_pos (List.mem_cons_of_mem _ hmem)]
        · rw [if_neg hmem, if_neg, List.cons_append]
          exact fun h => (List.mem_cons.mp h).elim (fun heq => hx heq.symm) hmem

/-- An entry after an event is one of another key, the updated one of the event's key, or new. -/
theorem Rule.mem_record {e : ω} {x : ε} (hnodup : (table.map R.key).Nodup)
    (h : x ∈ R.record e table) :
    (x ∈ table ∧ R.key x ≠ R.keyOf e) ∨
      (∃ y ∈ table, R.key y = R.keyOf e ∧ x = R.update e y) ∨
      (R.keyOf e ∉ table.map R.key ∧ x = R.update e (R.new e)) := by
  induction table with
  | nil => exact .inr (.inr ⟨List.not_mem_nil, List.mem_singleton.mp h⟩)
  | cons y ys ih =>
      rw [List.map_cons] at hnodup
      obtain ⟨hy, hys⟩ := List.nodup_cons.mp hnodup
      rw [Rule.record] at h
      by_cases hkey : R.key y = R.keyOf e
      · rw [if_pos hkey] at h
        rcases List.mem_cons.mp h with rfl | hx
        · exact .inr (.inl ⟨y, List.mem_cons_self, hkey, rfl⟩)
        · refine .inl ⟨List.mem_cons_of_mem _ hx, fun heq => hy ?_⟩
          rw [hkey, ← heq]
          exact List.mem_map_of_mem hx
      · rw [if_neg hkey] at h
        rcases List.mem_cons.mp h with rfl | hx
        · exact .inl ⟨List.mem_cons_self, hkey⟩
        · rcases ih hys hx with ⟨hmem, hne⟩ | ⟨z, hz, hzkey, hzx⟩ | ⟨hnew, hxnew⟩
          · exact .inl ⟨List.mem_cons_of_mem _ hmem, hne⟩
          · exact .inr (.inl ⟨z, List.mem_cons_of_mem _ hz, hzkey, hzx⟩)
          · refine .inr (.inr ⟨fun hin => ?_, hxnew⟩)
            exact (List.mem_cons.mp hin).elim (fun heq => hkey heq.symm) hnew

theorem Rule.ofKey_append_self (events : List ω) (e : ω) :
    R.ofKey (events ++ [e]) (R.keyOf e) = R.ofKey events (R.keyOf e) ++ [e] := by
  simp [Rule.ofKey]

theorem Rule.ofKey_append_ne (events : List ω) {e : ω} {k : κ} (hne : k ≠ R.keyOf e) :
    R.ofKey (events ++ [e]) k = R.ofKey events k := by
  simp [Rule.ofKey, hne.symm]

omit [DecidableEq κ] in
theorem Rule.updates_append_singleton (events : List ω) (e : ω) (x : ε) :
    R.updates (events ++ [e]) x = R.update e (R.updates events x) := by
  simp [Rule.updates]

/-- **One event.** -/
theorem Rule.Grouped.record {events : List ω} (h : R.Grouped events table) (e : ω) :
    R.Grouped (events ++ [e]) (R.record e table) := by
  refine ⟨?_, fun k => ?_, fun x hx => ?_⟩
  · rw [Rule.map_key_record]
    split
    · exact h.nodup
    · rename_i hnew
      refine List.nodup_append.mpr ⟨h.nodup, List.nodup_singleton _, ?_⟩
      rintro k hk l hl rfl
      exact hnew (List.mem_singleton.mp hl ▸ hk)
  · rw [Rule.map_key_record, List.map_append, List.mem_append, List.map_singleton,
      List.mem_singleton, ← h.mem_iff]
    split
    · rename_i hold
      exact ⟨.inl, fun hk => hk.elim id fun heq => heq ▸ hold⟩
    · rw [List.mem_append, List.mem_singleton]
  · rcases Rule.mem_record h.nodup hx with ⟨hmem, hne⟩ | ⟨y, hy, hkey, rfl⟩ | ⟨hnew, rfl⟩
    · obtain ⟨f, fs, hf, heq⟩ := h.entry x hmem
      exact ⟨f, fs, by rw [Rule.ofKey_append_ne events hne, hf], heq⟩
    · obtain ⟨f, fs, hf, heq⟩ := h.entry y hy
      refine ⟨f, fs ++ [e], ?_, ?_⟩
      · rw [R.key_update, hkey, Rule.ofKey_append_self, ← hkey, hf, List.cons_append]
      · rw [← List.cons_append, Rule.updates_append_singleton, ← heq]
    · have hnone : R.ofKey events (R.keyOf e) = [] := by
        refine List.filter_eq_nil_iff.mpr fun f hf heq => hnew ?_
        rw [h.mem_iff, ← of_decide_eq_true heq]
        exact List.mem_map_of_mem hf
      refine ⟨e, [], ?_, rfl⟩
      rw [R.key_update, R.key_new, Rule.ofKey_append_self, hnone, List.nil_append]

theorem Rule.Grouped.run {before events : List ω} (h : R.Grouped before table) :
    R.Grouped (before ++ events) (R.run events table) := by
  induction events generalizing before table with
  | nil => simpa [Rule.run] using h
  | cons e es ih =>
      have hstep := ih (h.record e)
      rwa [List.append_assoc, List.singleton_append] at hstep

/-- **Every key that was met has one entry, made of its own events.** -/
theorem Rule.grouped (events : List ω) : R.Grouped events (R.run events []) := by
  have hempty : R.Grouped [] [] :=
    ⟨List.nodup_nil, fun k => Iff.rfl, fun x hx => absurd hx List.not_mem_nil⟩
  exact hempty.run

end Grouping

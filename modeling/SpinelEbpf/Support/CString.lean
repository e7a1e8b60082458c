import Mathlib

/-!
# Support — C strings

A string is its letters before the terminator.  Where C gives a pointer into a string, `strstr` and
`strrchr` give what stands before and what stands after the place.

A needle whose first letter does not come again in it cannot overlap itself, so in
`pre ++ needle ++ after` it is found at the end of `pre` unless it is in `pre` (`strstr_append`).
-/

namespace CString

/-- A string; the terminator is no letter of it. -/
@[ext]
structure Str (α : Type) [Zero α] where
  bytes : List α
  noNul : 0 ∉ bytes

variable {α : Type} [DecidableEq α] {text needle after : List α} {c : α}

/-- The first occurrence of `needle`. -/
def strstr (needle : List α) : List α → Option (List α × List α)
  | []      => if needle = [] then some ([], []) else none
  | c :: cs =>
      if needle.isPrefixOf (c :: cs) then some ([], (c :: cs).drop needle.length)
      else (strstr needle cs).map fun (before, after) => (c :: before, after)

/-- The last occurrence of `c`. -/
def strrchr (c : α) : List α → Option (List α × List α)
  | []      => none
  | x :: xs =>
      match strrchr c xs with
      | some (before, after) => some (x :: before, after)
      | none => if x = c then some ([], xs) else none

/-- `snprintf(dst, cap, "%s", text)`. -/
def snprintf (cap : Nat) (text : List α) : List α := text.take (cap - 1)

/-- The tokens that `strtok_r` gives one after the other. -/
def strtok (sep : α) (text : List α) : List (List α) := (text.splitOn sep).filter (· ≠ [])

/-! ### Copies -/

omit [DecidableEq α] in
theorem snprintf_of_lt {cap : Nat} (h : text.length < cap) :
    snprintf cap text = text :=
  List.take_of_length_le (by omega)

omit [DecidableEq α] in
theorem length_snprintf {cap : Nat} (hcap : 0 < cap) (text : List α) :
    (snprintf cap text).length < cap := by
  have := List.length_take_le (cap - 1) text
  rw [snprintf]
  omega

/-! ### Tokens -/

/-- The tokens of a text that was put together from them. -/
theorem strtok_intercalate {sep : α} {toks : List (List α)} (hne : toks ≠ [])
    (htoks : ∀ tok ∈ toks, tok ≠ [] ∧ sep ∉ tok) : strtok sep ([sep].intercalate toks) = toks := by
  rw [strtok, List.splitOn_intercalate sep (fun tok h => (htoks tok h).2) hne,
    List.filter_eq_self]
  intro tok htok
  exact decide_eq_true (htoks tok htok).1

omit [DecidableEq α] in
theorem length_intercalate_le {sep : α} {n : Nat} {toks : List (List α)}
    (h : ∀ tok ∈ toks, tok.length ≤ n) :
    ([sep].intercalate toks).length ≤ toks.length * (n + 1) := by
  induction toks with
  | nil => exact Nat.zero_le _
  | cons tok toks ih =>
      obtain ⟨htok, htoks⟩ := List.forall_mem_cons.mp h
      have hrest := ih htoks
      rw [List.length_cons, Nat.succ_mul]
      cases toks with
      | nil => rw [List.intercalate_singleton]; omega
      | cons tok' toks =>
          rw [List.intercalate_cons_cons, List.length_append, List.length_append,
            List.length_singleton]
          omega

/-! ### The first occurrence -/

theorem eq_append_of_strstr {before : List α} (h : strstr needle text = some (before, after)) :
    text = before ++ (needle ++ after) := by
  induction text generalizing before with
  | nil =>
      rw [strstr] at h
      split at h
      next hnil =>
        obtain ⟨rfl, rfl⟩ := Prod.mk.inj (Option.some.inj h)
        rw [hnil, List.append_nil, List.append_nil]
      · cases h
  | cons c cs ih =>
      rw [strstr] at h
      split at h
      next hpre =>
        obtain ⟨rfl, rfl⟩ := Prod.mk.inj (Option.some.inj h)
        exact (List.prefix_iff_eq_append.mp (List.isPrefixOf_iff_prefix.mp hpre)).symm
      · obtain ⟨⟨b, a⟩, hfirst, heq⟩ := Option.map_eq_some_iff.mp h
        obtain ⟨rfl, rfl⟩ := Prod.mk.inj heq
        rw [ih hfirst, List.cons_append]

theorem strstr_eq_none_iff :
    strstr needle text = none ↔ ¬ needle <:+: text := by
  induction text with
  | nil =>
      rw [strstr, List.infix_nil]
      split <;> simp_all
  | cons c cs ih =>
      rw [strstr, List.infix_cons_iff, ← List.isPrefixOf_iff_prefix]
      split
      next hpre => simp [hpre]
      next hpre => rw [Option.map_eq_none_iff, ih]; simp [hpre]

/-- A needle with a letter that the text does not have. -/
theorem strstr_of_not_mem (x : α) (hx : x ∈ needle) (htext : x ∉ text) :
    strstr needle text = none :=
  strstr_eq_none_iff.mpr fun h => htext (h.subset hx)

/-- The needle at the end of `pre` is the first one. -/
theorem strstr_append {cs pre : List α} (hc : c ∉ cs) (hpre : ¬ (c :: cs) <:+: pre) :
    strstr (c :: cs) (pre ++ ((c :: cs) ++ after)) = some (pre, after) := by
  induction pre with
  | nil =>
      have hstarts : (c :: cs).isPrefixOf ((c :: cs) ++ after) = true :=
        List.isPrefixOf_iff_prefix.mpr (List.prefix_append _ _)
      rw [List.nil_append, List.cons_append, strstr, ← List.cons_append, if_pos hstarts,
        List.drop_left]
  | cons x xs ih =>
      rw [List.infix_cons_iff, not_or] at hpre
      have hstarts : ¬ (c :: cs).isPrefixOf ((x :: xs) ++ ((c :: cs) ++ after)) = true := by
        intro h
        have hpre' := List.isPrefixOf_iff_prefix.mp h
        rcases List.prefix_or_prefix_of_prefix hpre' (List.prefix_append _ _) with hle | ⟨t, ht⟩
        · exact hpre.1 hle
        -- the needle would begin in `pre` and end in the needle, so its first letter comes again
        · rw [← ht, List.prefix_append_right_inj] at hpre'
          cases t with
          | nil => exact hpre.1 (by rw [← ht, List.append_nil])
          | cons y ys =>
              obtain ⟨rfl, hcs⟩ := List.cons.inj ht
              obtain ⟨rfl, -⟩ := List.cons_prefix_cons.mp hpre'
              exact hc (hcs ▸ List.mem_append_right xs List.mem_cons_self)
      rw [List.cons_append, strstr, ← List.cons_append, if_neg hstarts, ih hpre.2]
      rfl

/-! ### The last occurrence -/

theorem strrchr_of_not_mem (h : c ∉ text) : strrchr c text = none := by
  induction text with
  | nil => rfl
  | cons x xs ih =>
      rw [List.mem_cons, not_or] at h
      rw [strrchr, ih h.2]
      exact if_neg (Ne.symm h.1)

theorem strrchr_append (pre : List α) (h : c ∉ after) :
    strrchr c (pre ++ c :: after) = some (pre, after) := by
  induction pre with
  | nil => rw [List.nil_append, strrchr, strrchr_of_not_mem h]; exact if_pos rfl
  | cons x xs ih => rw [List.cons_append, strrchr, ih]

end CString

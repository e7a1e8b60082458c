import Mathlib

/-!
# Support — Bytes

Byte memories with block writes and reads, and numbers as little-endian bytes.  A read after a
chain of writes is one of two facts at each link: it is off the bytes written (`read_write_off`), or
it is the bytes written (`read_write`).
-/

namespace Bytes

/-- Bytes by address. -/
abbrev Mem := Nat → UInt8

/-- `bs` at `o`. -/
def write (m : Mem) (o : Nat) (bs : List UInt8) : Mem := fun a =>
  if o ≤ a ∧ a < o + bs.length then bs.getD (a - o) 0 else m a

/-- The `n` bytes at `o`. -/
def read (m : Mem) (o n : Nat) : List UInt8 := (List.range n).map fun i => m (o + i)

@[simp]
theorem length_read (m : Mem) (o n : Nat) : (read m o n).length = n := by
  rw [read, List.length_map, List.length_range]

variable {o n : Nat} {m : Mem} {bs : List UInt8}

theorem getElem_read {i : Nat} (h : i < (read m o n).length) :
    (read m o n)[i] = m (o + i) := by
  simp [read]

theorem read_congr {m' : Mem} (h : ∀ a, o ≤ a → a < o + n → m a = m' a) :
    read m o n = read m' o n := by
  refine List.map_congr_left fun i hi => h _ (Nat.le_add_right o i) ?_
  have := List.mem_range.mp hi
  omega

/-- A read off the bytes written. -/
theorem read_write_off {p : Nat} (h : o + n ≤ p ∨ p + bs.length ≤ o) :
    read (write m p bs) o n = read m o n := by
  refine read_congr fun a hlo hhi => ?_
  rw [write, if_neg (by omega)]

/-- A read of the bytes written. -/
theorem read_write (h : bs.length = n) :
    read (write m o bs) o n = bs := by
  subst h
  refine List.ext_getElem (length_read _ _ _) fun i _ hi => ?_
  rw [getElem_read, write, if_pos (by omega), Nat.add_sub_cancel_left, List.getD_eq_getElem _ _ hi]

/-- One changed byte is one changed element. -/
theorem read_update {k : Nat} (v : UInt8) :
    read (Function.update m (o + k) v) o n = (read m o n).set k v := by
  refine List.ext_getElem (by simp) fun i hi _ => ?_
  rw [getElem_read, List.getElem_set, getElem_read]
  by_cases hik : k = i
  · rw [if_pos hik, hik, Function.update_self]
  · rw [if_neg hik, Function.update_of_ne (by omega)]

theorem read_add (m : Mem) (o a b : Nat) :
    read m o (a + b) = read m o a ++ read m (o + a) b := by
  rw [read, List.range_add, List.map_append, List.map_map, read, read]
  simp only [Function.comp_def, Nat.add_assoc]

/-! ### What stands at an address -/

/-- `bs` stands at `o`. -/
def Holds (m : Mem) (o : Nat) (bs : List UInt8) : Prop := read m o bs.length = bs

theorem holds_write (m : Mem) (o : Nat) (bs : List UInt8) : Holds (write m o bs) o bs :=
  read_write rfl

theorem Holds.write_off {p : Nat} {as : List UInt8} (hold : Holds m o as)
    (hoff : o + as.length ≤ p ∨ p + bs.length ≤ o) : Holds (write m p bs) o as :=
  (read_write_off hoff).trans hold

theorem holds_append {as : List UInt8} :
    Holds m o (as ++ bs) ↔ Holds m o as ∧ Holds m (o + as.length) bs := by
  rw [Holds, List.length_append, read_add, Holds, Holds]
  exact ⟨fun h => List.append_inj h (length_read _ _ _), fun ⟨ha, hb⟩ => by rw [ha, hb]⟩

theorem holds_cons {b : UInt8} :
    Holds m o (b :: bs) ↔ m o = b ∧ Holds m (o + 1) bs := by
  rw [← List.singleton_append, holds_append]
  refine and_congr_left' ?_
  show [m (o + 0)] = [b] ↔ _
  rw [List.singleton_inj, Nat.add_zero]

/-- The parts of a table with rows of `w` bytes. -/
theorem holds_flatMap {α : Type} {f : α → List UInt8} {w : Nat} (hw : ∀ x, (f x).length = w)
    {xs : List α} (h : Holds m o (xs.flatMap f)) {i : Nat} {x : α} (hi : xs[i]? = some x) :
    Holds m (o + w * i) (f x) := by
  induction xs generalizing o i with
  | nil => cases hi
  | cons y ys ih =>
      rw [List.flatMap_cons, holds_append, hw] at h
      cases i with
      | zero =>
          obtain rfl := Option.some.inj hi
          exact h.1
      | succ i =>
          have hrest := ih h.2 hi
          rwa [Nat.add_assoc, Nat.add_comm w, ← Nat.mul_succ] at hrest

/-! ### Numbers -/

/-- The `w` low bytes of `n`, the lowest first. -/
def le : Nat → Nat → List UInt8
  | 0, _     => []
  | w + 1, n => UInt8.ofNat n :: le w (n / 256)

/-- The number of some bytes. -/
def ofLe : List UInt8 → Nat
  | []      => 0
  | b :: bs => b.toNat + 256 * ofLe bs

@[simp]
theorem length_le (w n : Nat) : (le w n).length = w := by
  induction w generalizing n with
  | zero => rfl
  | succ w ih => rw [le, List.length_cons, ih]

theorem ofLe_le {w : Nat} (h : n < 256 ^ w) : ofLe (le w n) = n := by
  induction w generalizing n with
  | zero =>
      have hn : n = 0 := by simpa using h
      rw [hn]
      rfl
  | succ w ih =>
      have hdiv : n / 256 < 256 ^ w := by
        rw [Nat.pow_succ] at h
        omega
      rw [le, ofLe, ih hdiv, UInt8.toNat_ofNat']
      omega

end Bytes

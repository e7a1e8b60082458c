import Mathlib

/-!
# Record — Layout

A channel's record is declared as a list of fields (`CcRecField`); the generator computes where
each of them stands.  `layout` pads every field to its own alignment and the record to the widest
one, and `requiredBytes` is the length below which a record is refused.  Both stop the generator
on a bad declaration.
-/

namespace SpinelEbpf.Record

/-- `CcRecField`: `count` is 0 for a scalar, `size` and `align` are those of one element. -/
structure CcRecField where
  name : String
  ctype : String
  count : Nat
  size : Nat
  align : Nat
  expose : Option String
  deriving DecidableEq, Repr

/-- The bytes of the whole field. -/
def CcRecField.bytes (f : CcRecField) : Nat := f.size * if f.count > 0 then f.count else 1

/-- A `char[]`, which this code base reads as a C string. -/
def CcRecField.isCString (f : CcRecField) : Bool := decide (f.count > 0) && f.ctype == "char"

/-- The part of `CcRecSchema` that lays out the record. -/
structure CcRecSchema where
  id : String
  structSuffix : String
  mapSuffix : String
  fields : List CcRecField
  requiredThrough : Option String
  producers : List String
  deriving DecidableEq, Repr

/-- `die`: the generator's message. -/
def die (msg what : String) : String := "gen_record_mirror: " ++ msg ++ ": " ++ what

/-- `off`, padded to a multiple of `align`. -/
def padTo (off align : Nat) : Nat :=
  if off % align ≠ 0 then off + (align - off % align) else off

/-- A field and its offset. -/
abbrev Placed := CcRecField × Nat

/-- Where a placed field ends. -/
def fieldEnd (p : Placed) : Nat := p.2 + p.1.bytes

/-- The loop of `layout`, with the offset and the widest alignment so far. -/
def layoutLoop : List CcRecField → Nat → Nat → Except String (List Placed × Nat × Nat)
  | [], off, maxalign => .ok ([], off, maxalign)
  | f :: fs, off, maxalign =>
      if f.size = 0 ∨ f.align = 0 then .error (die "field has non-positive size/align" f.name)
      else
        let off := padTo off f.align
        match layoutLoop fs (off + f.bytes) (if f.align > maxalign then f.align else maxalign) with
        | .error e => .error e
        | .ok (rest, last, widest) => .ok ((f, off) :: rest, last, widest)

/-- `layout`: the placed fields and the size of the record. -/
def layout (s : CcRecSchema) : Except String (List Placed × Nat) :=
  match layoutLoop s.fields 0 1 with
  | .error e => .error e
  | .ok (placed, off, maxalign) => .ok (placed, padTo off maxalign)

/-- `required_bytes`. -/
def requiredBytes (s : CcRecSchema) (placed : List Placed) (total : Nat) : Except String Nat :=
  match s.requiredThrough with
  | none => .ok total
  | some name =>
      match placed.find? fun p => p.1.name = name with
      | some p => .ok (fieldEnd p)
      | none   => .error (die "required_through names no field of this record" name)

/-! ### What is laid out -/

theorem le_padTo (off align : Nat) : off ≤ padTo off align := by
  unfold padTo
  split <;> omega

theorem CcRecField.bytes_pos {f : CcRecField} (h : f.size ≠ 0) : 0 < f.bytes := by
  unfold CcRecField.bytes
  refine Nat.mul_pos (Nat.pos_of_ne_zero h) ?_
  split <;> omega

/-- A field of the list was accepted, and comes first. -/
theorem layoutLoop_cons {f : CcRecField} {fs : List CcRecField} {off maxalign last widest : Nat}
    {placed : List Placed} (h : layoutLoop (f :: fs) off maxalign = .ok (placed, last, widest)) :
    f.size ≠ 0 ∧ f.align ≠ 0 ∧ ∃ rest, placed = (f, padTo off f.align) :: rest ∧
      layoutLoop fs (padTo off f.align + f.bytes) (if f.align > maxalign then f.align else maxalign)
        = .ok (rest, last, widest) := by
  rw [layoutLoop] at h
  by_cases hbad : f.size = 0 ∨ f.align = 0
  · rw [if_pos hbad] at h
    nomatch h
  rw [if_neg hbad] at h
  dsimp only at h
  obtain ⟨hsize, halign⟩ := not_or.mp hbad
  cases hrest : layoutLoop fs (padTo off f.align + f.bytes)
      (if f.align > maxalign then f.align else maxalign) with
  | error e =>
      rw [hrest] at h
      nomatch h
  | ok r =>
      obtain ⟨rest, last', widest'⟩ := r
      rw [hrest] at h
      obtain ⟨rfl, rfl, rfl⟩ : (f, padTo off f.align) :: rest = placed ∧ last' = last ∧
          widest' = widest := by
        have := Except.ok.inj h
        simpa only [Prod.mk.injEq] using this
      exact ⟨hsize, halign, rest, rfl, rfl⟩

/-- The placed fields are the fields, in order, none empty, between the two offsets. -/
theorem layoutLoop_spec {fs : List CcRecField} {off maxalign last widest : Nat}
    {placed : List Placed} (h : layoutLoop fs off maxalign = .ok (placed, last, widest)) :
    placed.map Prod.fst = fs ∧ off ≤ last ∧
      ∀ p ∈ placed, off ≤ p.2 ∧ 0 < p.1.bytes ∧ fieldEnd p ≤ last := by
  induction fs generalizing off maxalign placed with
  | nil =>
      cases h
      exact ⟨rfl, Nat.le_refl _, fun _ hp => absurd hp List.not_mem_nil⟩
  | cons f fs ih =>
      obtain ⟨hsize, -, rest, rfl, hrest⟩ := layoutLoop_cons h
      obtain ⟨hmap, hle, hin⟩ := ih hrest
      have hpad := le_padTo off f.align
      refine ⟨by rw [List.map_cons, hmap], by omega, List.forall_mem_cons.mpr ⟨?_, ?_⟩⟩
      · exact ⟨hpad, CcRecField.bytes_pos hsize, hle⟩
      · intro p hp
        obtain ⟨hoff, hpos, hend⟩ := hin p hp
        exact ⟨by omega, hpos, hend⟩

section

variable {s : CcRecSchema} {placed : List Placed} {total : Nat}

theorem layout_eq_ok (h : layout s = .ok (placed, total)) :
    ∃ off maxalign, layoutLoop s.fields 0 1 = .ok (placed, off, maxalign) ∧
      total = padTo off maxalign := by
  unfold layout at h
  cases hloop : layoutLoop s.fields 0 1 with
  | error e =>
      rw [hloop] at h
      nomatch h
  | ok r =>
      obtain ⟨placed', off, maxalign⟩ := r
      rw [hloop] at h
      obtain ⟨rfl, rfl⟩ : placed' = placed ∧ padTo off maxalign = total := by
        have := Except.ok.inj h
        simpa only [Prod.mk.injEq] using this
      exact ⟨off, maxalign, rfl, rfl⟩

/-- No field is empty, and each ends inside the record. -/
theorem layout_inside (h : layout s = .ok (placed, total)) {p : Placed} (hp : p ∈ placed) :
    0 < p.1.bytes ∧ fieldEnd p ≤ total := by
  obtain ⟨off, maxalign, hloop, rfl⟩ := layout_eq_ok h
  obtain ⟨-, -, hin⟩ := layoutLoop_spec hloop
  obtain ⟨-, hpos, hend⟩ := hin p hp
  exact ⟨hpos, Nat.le_trans hend (le_padTo off maxalign)⟩

theorem requiredBytes_le {req : Nat} (h : layout s = .ok (placed, total))
    (hreq : requiredBytes s placed total = .ok req) : req ≤ total := by
  unfold requiredBytes at hreq
  cases hthrough : s.requiredThrough with
  | none =>
      rw [hthrough] at hreq
      exact Nat.le_of_eq (Except.ok.inj hreq).symm
  | some name =>
      rw [hthrough] at hreq
      dsimp only at hreq
      cases hfind : placed.find? fun p => p.1.name = name with
      | none =>
          rw [hfind] at hreq
          nomatch hreq
      | some p =>
          rw [hfind] at hreq
          obtain rfl : fieldEnd p = req := Except.ok.inj hreq
          exact (layout_inside h (List.mem_of_find?_eq_some hfind)).2

end

end SpinelEbpf.Record

import SpinelEbpf.Record.Metrics
import SpinelEbpf.Support.Checked

/-!
# Record — the layout is a C layout

`layout` computes in natural numbers; the generator computes in `int` (`layoutInt`), and a sum or a
product that is no `int` is undefined behaviour.  Where the record's size is an `int`, every step
is, and both compute the same (`layoutIntLoop_eq_ok_iff`).

* `Packed`: one field behind the other, each at the next multiple of its alignment.
  `layoutLoop_packed` is the induction over the fields, and `ValidLayout` is read off it.
* `padTo_le_of_layoutLoop`: more fields never make a record smaller, for any alignments.  A wider
  alignment than the widest so far costs more than the padding it replaces.
* `layout_valid_iff`: the layout is valid and stays as it is when fields are appended, exactly for
  the records whose size is an `int`.
-/

namespace SpinelEbpf.Record
open Checked (bind_ok)

/-! ### Padding -/

variable {widest last m off : Nat} {fs : List CcRecField} {placed : List Placed}

section Padding

variable {off off' align : Nat}

theorem dvd_padTo (off : Nat) (hpos : 0 < align) : align ∣ padTo off align := by
  unfold padTo
  split
  · have hdiv := Nat.div_add_mod off align
    have hmod := Nat.mod_lt off hpos
    refine ⟨off / align + 1, ?_⟩
    rw [Nat.mul_add]
    omega
  · rename_i hmod
    exact Nat.dvd_of_mod_eq_zero (not_not.mp hmod)

theorem padTo_lt (off : Nat) (hpos : 0 < align) : padTo off align < off + align := by
  unfold padTo
  split
  · have := Nat.mod_lt off hpos
    omega
  · omega

/-- The next multiple is the least one. -/
theorem padTo_le {t : Nat} (hpos : 0 < align) (hdvd : align ∣ t) (hle : off ≤ t) :
    padTo off align ≤ t := by
  by_contra hlt
  have hgap : padTo off align < t + align := Nat.lt_of_lt_of_le (padTo_lt off hpos) (by omega)
  obtain ⟨k, hk⟩ := dvd_padTo off hpos
  obtain ⟨j, rfl⟩ := hdvd
  rw [hk] at hlt hgap
  rw [← Nat.mul_succ] at hgap
  have hjk : k < j + 1 := Nat.lt_of_mul_lt_mul_left hgap
  have hkj : j < k := Nat.lt_of_mul_lt_mul_left (Nat.lt_of_not_le hlt)
  omega

theorem padTo_mono (hpos : 0 < align) (hle : off ≤ off') : padTo off align ≤ padTo off' align :=
  padTo_le hpos (dvd_padTo off' hpos) (Nat.le_trans hle (le_padTo off' align))

/-- One more field never makes the record smaller. -/
theorem padTo_le_step {bytes : Nat} (off : Nat) (hwidest : 0 < widest) (halign : 0 < align)
    (hbytes : 0 < bytes) :
    padTo off widest ≤
      padTo (padTo off align + bytes) (if align > widest then align else widest) := by
  have hoff := le_padTo off align
  split
  · rename_i hwider
    -- the record ends behind a multiple of the wider alignment, so at the next one or later
    have hdvd := dvd_padTo (padTo off align + bytes) halign
    have hnext : padTo off align + align ≤ padTo (padTo off align + bytes) align := by
      obtain ⟨k, hk⟩ := hdvd
      obtain ⟨j, hj⟩ := dvd_padTo off halign
      have hlt : padTo off align < padTo (padTo off align + bytes) align :=
        Nat.lt_of_lt_of_le (by omega) (le_padTo _ _)
      rw [hk, hj] at hlt ⊢
      rw [← Nat.mul_succ]
      exact Nat.mul_le_mul_left _ (Nat.lt_of_mul_lt_mul_left hlt)
    have := padTo_lt off hwidest
    omega
  · exact padTo_mono hwidest (by omega)

end Padding

/-! ### One field behind the other -/

/-- The fields stand one behind the other from `off` on, each at the next multiple of its alignment,
and the last ends at `last`. -/
inductive Packed : Nat → List Placed → Nat → Prop
  | nil (off : Nat) : Packed off [] off
  | cons {off last : Nat} {p : Placed} {rest : List Placed} (haligned : p.1.align ∣ p.2)
      (hle : off ≤ p.2) (hlt : p.2 < off + p.1.align) (hrest : Packed (fieldEnd p) rest last) :
      Packed off (p :: rest) last

/-- The widest alignment of the fields, at least `m`. -/
def widestFrom (m : Nat) (fields : List CcRecField) : Nat :=
  fields.foldl (fun m f => max m f.align) m

/-- Where the fields end that start at `off`. -/
def endFrom (off : Nat) (fields : List CcRecField) : Nat :=
  fields.foldl (fun off f => padTo off f.align + f.bytes) off

theorem if_gt_eq_max (a m : Nat) : (if a > m then a else m) = max m a := by
  split <;> omega

/-- What the loop computes. -/
theorem layoutLoop_packed (h : layoutLoop fs off m = .ok (placed, last, widest)) :
    Packed off placed last ∧ last = endFrom off fs ∧ widest = widestFrom m fs := by
  induction fs generalizing off m placed with
  | nil =>
      cases h
      exact ⟨.nil _, rfl, rfl⟩
  | cons f fs ih =>
      obtain ⟨-, halign, rest, rfl, hrest⟩ := layoutLoop_cons h
      rw [if_gt_eq_max] at hrest
      obtain ⟨hpacked, hlast, hwidest⟩ := ih hrest
      have hpos := Nat.pos_of_ne_zero halign
      exact ⟨.cons (dvd_padTo off hpos) (le_padTo off _) (padTo_lt off hpos) hpacked, hlast, hwidest⟩

theorem le_widestFrom (m : Nat) (fields : List CcRecField) : m ≤ widestFrom m fields := by
  induction fields generalizing m with
  | nil => exact Nat.le_refl _
  | cons f fs ih => exact Nat.le_trans (Nat.le_max_left _ _) (ih (max m f.align))

section

theorem Packed.le_last (h : Packed off placed last) : off ≤ last := by
  induction h with
  | nil off => exact Nat.le_refl _
  | cons _ hle _ _ ih => exact Nat.le_trans hle (Nat.le_trans (Nat.le_add_right _ _) ih)

theorem Packed.aligned (h : Packed off placed last) : ∀ p ∈ placed, p.1.align ∣ p.2 := by
  induction h with
  | nil off => exact fun _ hp => absurd hp List.not_mem_nil
  | cons haligned _ _ _ ih => exact List.forall_mem_cons.mpr ⟨haligned, ih⟩

/-- Every field stands between the two ends. -/
theorem Packed.between (h : Packed off placed last) :
    ∀ p ∈ placed, off ≤ p.2 ∧ fieldEnd p ≤ last := by
  induction h with
  | nil off => exact fun _ hp => absurd hp List.not_mem_nil
  | cons _ hle _ hrest ih =>
      refine List.forall_mem_cons.mpr ⟨⟨hle, hrest.le_last⟩, fun q hq => ?_⟩
      obtain ⟨hend, hlast⟩ := ih q hq
      exact ⟨Nat.le_trans hle (Nat.le_trans (Nat.le_add_right _ _) hend), hlast⟩

theorem Packed.disjoint (h : Packed off placed last) :
    placed.Pairwise fun p q => fieldEnd p ≤ q.2 := by
  induction h with
  | nil off => exact List.Pairwise.nil
  | cons _ _ _ hrest ih => exact List.pairwise_cons.mpr ⟨fun q hq => (hrest.between q hq).1, ih⟩

/-- What contains the fields contains their end. -/
theorem Packed.last_le (h : Packed off placed last) {t : Nat} (hoff : off ≤ t)
    (hin : ∀ p ∈ placed, fieldEnd p ≤ t) : last ≤ t := by
  induction h with
  | nil off => exact hoff
  | cons _ _ _ _ ih =>
      obtain ⟨hp, hrest⟩ := List.forall_mem_cons.mp hin
      exact ih hp hrest

/-- Where the last of the fields ends, or `off`. -/
def endOf (off : Nat) (placed : List Placed) : Nat := placed.getLast?.elim off fieldEnd

theorem endOf_cons (p : Placed) (placed : List Placed) :
    endOf off (p :: placed) = endOf (fieldEnd p) placed := by
  rw [endOf, endOf, List.getLast?_cons]
  cases placed.getLast? with
  | none => rfl
  | some q => rfl

theorem Packed.padding (h : Packed off placed last) {before after : List Placed} {p : Placed}
    (hp : placed = before ++ p :: after) :
    endOf off before ≤ p.2 ∧ p.2 < endOf off before + p.1.align := by
  induction h generalizing before with
  | nil off => exact absurd hp.symm (List.append_ne_nil_of_right_ne_nil _ (List.cons_ne_nil _ _))
  | cons haligned hle hlt _ ih =>
      cases before with
      | nil =>
          cases hp
          exact ⟨hle, hlt⟩
      | cons q before =>
          obtain ⟨rfl, hrest⟩ := List.cons.inj hp
          rw [endOf_cons]
          exact ih hrest

end

/-- Fields that have a size and an alignment are laid out. -/
theorem layoutLoop_total (hpos : ∀ f ∈ fs, 0 < f.size ∧ 0 < f.align) (off m : Nat) :
    ∃ r, layoutLoop fs off m = .ok r := by
  induction fs generalizing off m with
  | nil => exact ⟨_, rfl⟩
  | cons f fs ih =>
      obtain ⟨⟨hsize, halign⟩, hrest⟩ := List.forall_mem_cons.mp hpos
      obtain ⟨r, hr⟩ := ih hrest (padTo off f.align + f.bytes)
        (if f.align > m then f.align else m)
      rw [layoutLoop, if_neg (by omega)]
      dsimp only
      rw [hr]
      exact ⟨_, rfl⟩

/-- Fields at the end are laid out behind the others. -/
theorem layoutLoop_append {gs : List CcRecField}
    (h : layoutLoop fs off m = .ok (placed, last, widest)) :
    layoutLoop (fs ++ gs) off m =
      (layoutLoop gs last widest).map fun r => (placed ++ r.1, r.2) := by
  induction fs generalizing off m placed with
  | nil =>
      cases h
      rw [List.nil_append]
      cases layoutLoop gs last widest with
      | error e => rfl
      | ok r => rfl
  | cons f fs ih =>
      obtain ⟨hsize, halign, rest, rfl, hrest⟩ := layoutLoop_cons h
      rw [List.cons_append, layoutLoop, if_neg (not_or.mpr ⟨hsize, halign⟩)]
      dsimp only
      rw [ih hrest]
      cases layoutLoop gs last widest with
      | error e => rfl
      | ok r => rfl

/-- **More fields never make a record smaller.** -/
theorem padTo_le_of_layoutLoop {gs : List CcRecField} (hm : 0 < m)
    (h : layoutLoop gs off m = .ok (placed, last, widest)) :
    padTo off m ≤ padTo last widest := by
  induction gs generalizing off m placed with
  | nil =>
      cases h
      exact Nat.le_refl _
  | cons f gs ih =>
      obtain ⟨hsize, halign, rest, rfl, hrest⟩ := layoutLoop_cons h
      have hbytes : 0 < f.bytes := CcRecField.bytes_pos hsize
      have hstep := padTo_le_step off hm (Nat.pos_of_ne_zero halign) hbytes
      exact Nat.le_trans hstep (ih (by split <;> omega) hrest)

/-! ### A valid layout -/

/-- A C layout of the fields: every field at a multiple of its alignment, one behind the other, with
less padding before it than its alignment, and the size the least multiple of the widest alignment
that contains them. -/
structure ValidLayout (fields : List CcRecField) (placed : List Placed) (total : Nat) : Prop where
  fields_eq : placed.map Prod.fst = fields
  aligned : ∀ p ∈ placed, p.1.align ∣ p.2
  disjoint : placed.Pairwise fun p q => fieldEnd p ≤ q.2
  padding : ∀ before p after, placed = before ++ p :: after →
    endOf 0 before ≤ p.2 ∧ p.2 < endOf 0 before + p.1.align
  inside : ∀ p ∈ placed, fieldEnd p ≤ total
  least : IsLeast {t | widestFrom 1 fields ∣ t ∧ ∀ p ∈ placed, fieldEnd p ≤ t} total

section

variable {s : CcRecSchema} {total : Nat}

theorem layout_valid (h : layout s = .ok (placed, total)) :
    ValidLayout s.fields placed total := by
  obtain ⟨last, widest, hloop, rfl⟩ := layout_eq_ok h
  obtain ⟨hpacked, -, hwidest⟩ := layoutLoop_packed hloop
  have hpos : 0 < widest := by
    rw [hwidest]
    exact le_widestFrom 1 s.fields
  have hinside : ∀ p ∈ placed, fieldEnd p ≤ padTo last widest :=
    fun p hp => Nat.le_trans (hpacked.between p hp).2 (le_padTo last widest)
  refine ⟨(layoutLoop_spec hloop).1, hpacked.aligned, hpacked.disjoint,
    fun before p after hp => hpacked.padding hp, hinside, ?_⟩
  rw [← hwidest]
  refine ⟨⟨dvd_padTo last hpos, hinside⟩, fun t ht => ?_⟩
  exact padTo_le hpos ht.1 (hpacked.last_le (Nat.zero_le t) ht.2)

/-- **Append-only.**  Fields at the end move no field before them and never make the record
smaller. -/
theorem layout_append {more : List CcRecField} {placed' : List Placed} {total' : Nat}
    (h : layout s = .ok (placed, total))
    (h' : layout { s with fields := s.fields ++ more } = .ok (placed', total')) :
    placed <+: placed' ∧ total ≤ total' := by
  obtain ⟨last, widest, hloop, rfl⟩ := layout_eq_ok h
  obtain ⟨last', widest', hloop', rfl⟩ := layout_eq_ok h'
  have hwidest : 0 < widest := by
    rw [(layoutLoop_packed hloop).2.2]
    exact le_widestFrom 1 s.fields
  dsimp only at hloop'
  rw [layoutLoop_append hloop] at hloop'
  cases hmore : layoutLoop more last widest with
  | error e =>
      rw [hmore] at hloop'
      cases hloop'
  | ok r =>
      obtain ⟨rest, last'', widest''⟩ := r
      rw [hmore] at hloop'
      cases hloop'
      exact ⟨List.prefix_append _ _, padTo_le_of_layoutLoop hwidest hmore⟩

end

/-! ### In `int` -/

def intMax : Nat := 2 ^ 31 - 1

/-- The result of an `int` operation on numbers that are not negative. -/
def intOf (n : Nat) : Except Stop Nat := if n ≤ intMax then .ok n else .error .undefined

/-- The loop of `layout` in `int`. -/
def layoutIntLoop : List CcRecField → Nat → Nat → Except Stop (List Placed × Nat × Nat)
  | [], off, maxalign => .ok ([], off, maxalign)
  | f :: fs, off, maxalign =>
      if f.size = 0 ∨ f.align = 0 then stop "field has non-positive size/align" f.name
      else do
        let off ← intOf (padTo off f.align)
        let bytes ← intOf f.bytes
        let last ← intOf (off + bytes)
        let (rest, last, widest) ←
          layoutIntLoop fs last (if f.align > maxalign then f.align else maxalign)
        .ok ((f, off) :: rest, last, widest)

/-- `layout` in `int`. -/
def layoutInt (s : CcRecSchema) : Except Stop (List Placed × Nat) := do
  let (placed, off, maxalign) ← layoutIntLoop s.fields 0 1
  let total ← intOf (padTo off maxalign)
  .ok (placed, total)

theorem intOf_eq_ok_iff {n : Nat} : intOf n = .ok m ↔ n = m ∧ n ≤ intMax := by
  unfold intOf
  split
  · rename_i hle
    exact ⟨fun h => ⟨Except.ok.inj h, hle⟩, fun h => by rw [h.1]⟩
  · rename_i hle
    refine ⟨fun h => ?_, fun h => absurd h.2 hle⟩
    cases h

/-- What `int` computes is what the natural numbers have. -/
theorem layoutLoop_of_int {r : List Placed × Nat × Nat} (hoff : off ≤ intMax)
    (h : layoutIntLoop fs off m = .ok r) :
    layoutLoop fs off m = .ok r ∧ r.2.1 ≤ intMax := by
  induction fs generalizing off m r with
  | nil =>
      cases h
      exact ⟨rfl, hoff⟩
  | cons f fs ih =>
      rw [layoutIntLoop] at h
      split at h
      · cases h
      rename_i hgood
      obtain ⟨o, ho, h₁⟩ := bind_ok h
      obtain ⟨bytes, hbytes, h₂⟩ := bind_ok h₁
      obtain ⟨last, hlast, h₃⟩ := bind_ok h₂
      obtain ⟨⟨rest, last', widest⟩, hrest, h₄⟩ := bind_ok h₃
      obtain ⟨rfl, -⟩ := intOf_eq_ok_iff.mp ho
      obtain ⟨rfl, -⟩ := intOf_eq_ok_iff.mp hbytes
      obtain ⟨rfl, hfits⟩ := intOf_eq_ok_iff.mp hlast
      obtain ⟨hloop, hle⟩ := ih hfits hrest
      cases h₄
      rw [layoutLoop, if_neg hgood]
      dsimp only
      rw [hloop]
      exact ⟨rfl, hle⟩

/-- An end that is an `int` makes every step one. -/
theorem layoutIntLoop_of (h : layoutLoop fs off m = .ok (placed, last, widest))
    (hlast : last ≤ intMax) :
    layoutIntLoop fs off m = .ok (placed, last, widest) := by
  induction fs generalizing off m placed with
  | nil =>
      cases h
      rfl
  | cons f fs ih =>
      obtain ⟨hsize, halign, rest, rfl, hrest⟩ := layoutLoop_cons h
      have hle : padTo off f.align + f.bytes ≤ last := (layoutLoop_packed hrest).1.le_last
      rw [layoutIntLoop, if_neg (not_or.mpr ⟨hsize, halign⟩),
        intOf_eq_ok_iff.mpr ⟨rfl, Nat.le_trans (by omega) hlast⟩,
        Checked.ok_bind, intOf_eq_ok_iff.mpr ⟨rfl, Nat.le_trans (by omega) hlast⟩, Checked.ok_bind,
        intOf_eq_ok_iff.mpr ⟨rfl, Nat.le_trans hle hlast⟩, Checked.ok_bind, ih hrest]
      rfl

/-- **The two computations.**  `int` computes a layout exactly if its size is an `int`, and then the
same one. -/
theorem layoutInt_eq_ok_iff {s : CcRecSchema} {total : Nat} :
    layoutInt s = .ok (placed, total) ↔ layout s = .ok (placed, total) ∧ total ≤ intMax := by
  constructor
  · intro h
    obtain ⟨⟨placed', off, maxalign⟩, hloop, h⟩ := bind_ok h
    obtain ⟨total', htotal, h⟩ := bind_ok h
    obtain ⟨rfl, hfits⟩ := intOf_eq_ok_iff.mp htotal
    cases h
    rw [layout, (layoutLoop_of_int (Nat.zero_le _) hloop).1]
    exact ⟨rfl, hfits⟩
  · rintro ⟨h, hfits⟩
    obtain ⟨last, widest, hloop, rfl⟩ := layout_eq_ok h
    have hlast : last ≤ intMax := Nat.le_trans (le_padTo last widest) hfits
    rw [layoutInt, layoutIntLoop_of hloop hlast, Checked.ok_bind]
    dsimp only
    rw [intOf_eq_ok_iff.mpr ⟨rfl, hfits⟩]
    rfl

/-- The size of a record of these fields. -/
def recordSize (fields : List CcRecField) : Nat :=
  padTo (endFrom 0 fields) (widestFrom 1 fields)

/-- The generator computes a C layout of the fields, and appending fields moves none of them and
never makes the record smaller. -/
def AppendOnly (s : CcRecSchema) : Prop :=
  ∃ placed total, layoutInt s = .ok (placed, total) ∧ ValidLayout s.fields placed total ∧
    ∀ more placed' total', layoutInt { s with fields := s.fields ++ more } = .ok (placed', total') →
      placed <+: placed' ∧ total ≤ total'

/-- **The layout is a valid, append-only C layout**, exactly if the size of the record is an
`int`. -/
theorem layout_valid_iff (s : CcRecSchema) (hpos : ∀ f ∈ s.fields, 0 < f.size ∧ 0 < f.align) :
    AppendOnly s ↔ recordSize s.fields ≤ intMax := by
  obtain ⟨⟨placed, last, widest⟩, hloop⟩ := layoutLoop_total hpos 0 1
  obtain ⟨-, hlast, hwidest⟩ := layoutLoop_packed hloop
  have hlayout : layout s = .ok (placed, recordSize s.fields) := by
    rw [layout, hloop, hlast, hwidest]
    rfl
  constructor
  · rintro ⟨placed', total, hint, -, -⟩
    obtain ⟨hsame, hfits⟩ := layoutInt_eq_ok_iff.mp hint
    rw [hlayout] at hsame
    cases hsame
    exact hfits
  · intro hfits
    refine ⟨placed, _, layoutInt_eq_ok_iff.mpr ⟨hlayout, hfits⟩, layout_valid hlayout, ?_⟩
    intro more placed' total' hmore
    exact layout_append hlayout (layoutInt_eq_ok_iff.mp hmore).1

/-- Two elements that are each as large as an `int` allows. -/
def twoLarge : CcRecSchema where
  id := "large"
  structSuffix := "large"
  mapSuffix := "large"
  fields := [⟨"data", "char", 2, intMax, 1, none⟩]
  requiredThrough := none
  producers := []

theorem layout_undefined : layoutInt twoLarge = .error .undefined ∧ ¬ AppendOnly twoLarge := by
  have hundefined : layoutInt twoLarge = .error .undefined := by decide
  refine ⟨hundefined, ?_⟩
  rintro ⟨placed, total, hint, -, -⟩
  rw [hundefined] at hint
  cases hint

/-- A header and what follows it. -/
def headed : CcRecSchema where
  id := "headed"
  structSuffix := "headed"
  mapSuffix := "headed"
  fields := [⟨"pid", "__u32", 0, 4, 4, none⟩, ⟨"comm", "char", 3, 1, 1, none⟩,
    ⟨"at", "__u64", 0, 8, 8, none⟩]
  requiredThrough := none
  producers := []

theorem layout_valid_headed :
    recordSize headed.fields = 16 ∧ (AppendOnly headed ↔ recordSize headed.fields ≤ intMax) :=
  ⟨by decide, layout_valid_iff headed (by decide)⟩

end SpinelEbpf.Record

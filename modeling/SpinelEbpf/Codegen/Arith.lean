import SpinelEbpf.Codegen.Order

/-!
# Codegen — Arithmetic at C's own types

An operator tree over literals and locals is printed as it stands: a decimal literal by `%lld`, a
local by its name, which is declared `__s64`.  C then gives each subexpression a type of its own.
A literal whose digits fit `int` is an `int`, so `2147483647 + 1` is added in 32 bits; a division
rounds towards zero.  Ruby's integers have no size and its division rounds down.

`CExpr.typed` is the value of such a tree under C's typing, `Arith.ruby` is Ruby's.  They agree
modulo 2^64 on a tree and on all of its subexpressions exactly where `Arith.Faithful` holds
(`arith_faithful_iff`); it asks something of each operator, in terms of what Ruby's operands are.
Where no operand of `/`, `%` or `>>` has overflowed, `BinOp.Plain` is all that is asked.
-/

namespace SpinelEbpf.Codegen
open Twos

/-! ### C's types -/

/-- The types that occur.  `long` and `long long` have the same values as `__s64`. -/
inductive IntTy where
  | int
  | s64
  | u64
  deriving DecidableEq, Repr

namespace IntTy

def width : IntTy → Nat
  | .int => 32
  | _    => 64

/-- The conversion to a type, and what a wrapped result is. -/
def conv : IntTy → Int → Int
  | .int, a => a.bmod (2 ^ 32)
  | .s64, a => a.bmod (2 ^ 64)
  | .u64, a => a % 2 ^ 64

/-- The usual arithmetic conversions. -/
def join : IntTy → IntTy → IntTy
  | .int, .int => .int
  | .u64, _ | _, .u64 => .u64
  | _, _ => .s64

section

variable (t : IntTy) (a : Int)

theorem conv_modEq : t.conv a ≡ a [ZMOD 2 ^ t.width] := by
  cases t with
  | int => exact bmod_modEq a 32
  | s64 => exact bmod_modEq a 64
  | u64 => exact Int.mod_modEq a (2 ^ 64)

variable {t} {a} {b : Int}

theorem conv_congr (h : a ≡ b [ZMOD 2 ^ t.width]) : t.conv a = t.conv b := by
  cases t with
  | int => exact bmod_congr h
  | s64 => exact bmod_congr h
  | u64 => exact h

theorem width_dvd : (2 : Int) ^ t.width ∣ 2 ^ 64 :=
  pow_dvd_pow 2 (by cases t <;> decide)

theorem width_eq (h : t ≠ .int) : t.width = 64 := by
  cases t with
  | int => exact absurd rfl h
  | s64 => rfl
  | u64 => rfl

theorem conv_int (h : InBits 31 a) : conv .int a = a := (bmod_eq_self_iff 31 a).mpr h

theorem join_eq_int {s : IntTy} (h : t.join s = .int) : t = .int ∧ s = .int := by
  cases t <;> cases s <;> first | exact ⟨rfl, rfl⟩ | cases h

/-- A result that has the right 64 bits before it is wrapped has them after, unless it is an
`int` and too large for one. -/
theorem conv_modEq_iff {raw z : Int} (hraw : raw ≡ z [ZMOD 2 ^ 64])
    (hsmall : t = .int → InBits 63 z) :
    t.conv raw ≡ z [ZMOD 2 ^ 64] ↔ (t = .int → InBits 31 z) := by
  rw [conv_congr (hraw.of_dvd width_dvd)]
  by_cases ht : t = .int
  · subst ht
    simp only [true_implies] at hsmall ⊢
    constructor
    · intro h
      have hfits : InBits 31 (conv .int z) := inBits_bmod 31 z
      rwa [(hfits.mono (by decide)).eq_of_modEq hsmall h] at hfits
    · intro h
      rw [conv_int h]
  · refine ⟨fun _ h => absurd h ht, fun _ => ?_⟩
    have h := t.conv_modEq z
    rwa [width_eq ht] at h

end

end IntTy

/-- The type of a printed literal.  Its digits are those of the absolute value; what fits no
signed type is unsigned. -/
def litType (v : Int) : IntTy :=
  if v.natAbs < 2 ^ 31 then .int else if v.natAbs < 2 ^ 63 then .s64 else .u64

/-! ### Operators -/

namespace BinOp

def isShift : BinOp → Bool
  | .shl | .shr => true
  | _ => false

/-- The type an operator works at. -/
def operandTy (op : BinOp) (a b : IntTy) : IntTy := if op.isShift then a else a.join b

/-- The type of its result. -/
def resultTy (op : BinOp) (a b : IntTy) : IntTy := if op.comparison then .int else op.operandTy a b

/-- An operator on operands of type `t`, before the result is wrapped; `none` where C leaves it
undefined. -/
def machine (op : BinOp) (t : IntTy) (x y : Int) : Option Int :=
  match op with
  | .add  => some (x + y)
  | .sub  => some (x - y)
  | .mul  => some (x * y)
  | .div  => if y = 0 then none else some (x.tdiv y)
  | .mod  => if y = 0 then none else some (x.tmod y)
  | .band => some (Int.land x y)
  | .bor  => some (Int.lor x y)
  | .bxor => some (Int.xor x y)
  | .shl  => if 0 ≤ y ∧ y < t.width then some (x * 2 ^ y.toNat) else none
  | .shr  => if 0 ≤ y ∧ y < t.width then some (x / 2 ^ y.toNat) else none
  | .eq   => some (if x = y then 1 else 0)
  | .ne   => some (if x ≠ y then 1 else 0)
  | .lt   => some (if x < y then 1 else 0)
  | .gt   => some (if y < x then 1 else 0)
  | .le   => some (if x ≤ y then 1 else 0)
  | .ge   => some (if y ≤ x then 1 else 0)

/-- An operator of C on operands with their types. -/
def typed (op : BinOp) (a b : IntTy × Int) : Option (IntTy × Int) :=
  let t := op.operandTy a.1 b.1
  -- the count of a shift keeps its own type
  let y := if op.isShift then b.2 else t.conv b.2
  (op.machine t (t.conv a.2) y).map fun v =>
    (op.resultTy a.1 b.1, (op.resultTy a.1 b.1).conv v)

/-- Ruby's shift to the left; a negative count shifts the other way. -/
def shiftLeft (a n : Int) : Int := if 0 ≤ n then a * 2 ^ n.toNat else a / 2 ^ (-n).toNat

/-- An operator of Ruby on integers of any size; `none` where it raises or gives no integer. -/
def integer (op : BinOp) (a b : Int) : Option Int :=
  match op with
  | .add  => some (a + b)
  | .sub  => some (a - b)
  | .mul  => some (a * b)
  | .div  => if b = 0 then none else some (a.fdiv b)
  | .mod  => if b = 0 then none else some (a.fmod b)
  | .band => some (Int.land a b)
  | .bor  => some (Int.lor a b)
  | .bxor => some (Int.xor a b)
  | .shl  => some (shiftLeft a b)
  | .shr  => some (shiftLeft a (-b))
  | _     => none

end BinOp

/-! ### Trees -/

/-- A tree over literals of 64 bits and locals. -/
inductive Arith where
  | lit (value : Word)
  | lvar (name : String)
  | paren (e : Arith)
  | binop (op : BinOp) (l r : Arith)
  deriving DecidableEq, Repr

/-- The value of a C expression and its type; the texts of an arithmetic tree only. -/
def CExpr.typed (c : CState) : CExpr → Option (IntTy × Int)
  | .int v        => some (litType v, (litType v).conv v)
  | .var x        => some (.s64, (c.vars x).toInt)
  | .captured s   => some (.s64, (c.caps s).toInt)
  | .paren e      => e.typed c
  | .binop op l r => do
      let a ← l.typed c
      let b ← r.typed c
      op.typed a b
  | _ => none

namespace Arith

/-- The source. -/
def node : Arith → Node
  | .lit v        => .int v.toInt
  | .lvar x       => .lvar x
  | .paren e      => .paren [e.node]
  | .binop op l r => .binop op l.node r.node

def locals : Arith → List String
  | .lit _        => []
  | .lvar x       => [x]
  | .paren e      => e.locals
  | .binop _ l r  => l.locals ++ r.locals

/-- The tree and all below it. -/
def subtrees : Arith → List Arith
  | .lit v        => [.lit v]
  | .lvar x       => [.lvar x]
  | .paren e      => .paren e :: e.subtrees
  | .binop op l r => .binop op l r :: (l.subtrees ++ r.subtrees)

/-- Ruby's value. -/
def ruby (ρ : String → Word) : Arith → Option Int
  | .lit v        => some v.toInt
  | .lvar x       => some (ρ x).toInt
  | .paren e      => e.ruby ρ
  | .binop op l r => do
      let a ← l.ruby ρ
      let b ← r.ruby ρ
      op.integer a b

/-- Shift counts are between 0 and 63. -/
def Counted (ρ : String → Word) : Arith → Prop
  | .lit _ | .lvar _ => True
  | .paren e         => e.Counted ρ
  | .binop op l r    => l.Counted ρ ∧ r.Counted ρ ∧
      (op.isShift = true → ∀ n, r.ruby ρ = some n → 0 ≤ n ∧ n < 64)

/-- The generated text. -/
def text (ctx : Ctx) : Arith → CExpr
  | .lit v        => .int v.toInt
  | .lvar x       => ctx.readLocal (safeDup x)
  | .paren e      => .paren (e.text ctx)
  | .binop op l r => .binop op (l.text ctx) (r.text ctx)

/-- The type of the text. -/
def ty : Arith → IntTy
  | .lit v        => litType v.toInt
  | .lvar _       => .s64
  | .paren e      => e.ty
  | .binop op l r => op.resultTy l.ty r.ty

end Arith

/-! ### Where the two agree -/

/-- What an operator needs of Ruby's operands, with `ta` and `tb` the types of their texts, for C
to give its value. -/
def BinOp.Faithful (op : BinOp) (ta tb : IntTy) (a b : Int) : Prop :=
  let t := op.operandTy ta tb
  match op with
  | .add => t = .int → InBits 31 (a + b)
  | .sub => t = .int → InBits 31 (a - b)
  | .mul => t = .int → InBits 31 (a * b)
  | .band | .bor | .bxor => True
  | .shl => t = .int → b < 32 ∧ InBits 31 (a * 2 ^ b.toNat)
  -- bits above the 64 that C keeps are shifted into them
  | .shr => if t = .int then b < 32 else 2 ^ (64 + b.toNat) ∣ a - t.conv a
  | .div =>
      if t.conv a = a ∧ t.conv b = b then Rounds a b ∧ (t = .int → InBits 31 (a.fdiv b))
      -- an operand that has overflowed is another number in C
      else t.conv b ≠ 0 ∧ t.conv ((t.conv a).tdiv (t.conv b)) ≡ a.fdiv b [ZMOD 2 ^ 64]
  | .mod =>
      if t.conv a = a ∧ t.conv b = b then Rounds a b
      else t.conv b ≠ 0 ∧ t.conv ((t.conv a).tmod (t.conv b)) ≡ a.fmod b [ZMOD 2 ^ 64]
  | _ => False

/-- The operands of `/`, `%` and `>>` have not overflowed. -/
def BinOp.InRange (op : BinOp) (ta tb : IntTy) (a b : Int) : Prop :=
  let t := op.operandTy ta tb
  match op with
  | .div | .mod => t.conv a = a ∧ t.conv b = b
  | .shr => t.conv a = a
  | _ => True

/-- What an operator needs of operands in range. -/
def BinOp.Plain (op : BinOp) (ta tb : IntTy) (a b : Int) : Prop :=
  let t := op.operandTy ta tb
  match op with
  | .shr => t = .int → b < 32
  | .div => Rounds a b ∧ (t = .int → InBits 31 (a.fdiv b))
  | .mod => Rounds a b
  | _    => op.Faithful ta tb a b

/-- Every operator of the tree, with the types of its operands' texts and Ruby's values. -/
def Arith.Each (P : BinOp → IntTy → IntTy → Int → Int → Prop) (ρ : String → Word) : Arith → Prop
  | .lit _ | .lvar _ => True
  | .paren e         => e.Each P ρ
  | .binop op l r    => l.Each P ρ ∧ r.Each P ρ ∧
      ∀ a b, l.ruby ρ = some a → r.ruby ρ = some b → P op l.ty r.ty a b

/-- Every operator of the tree has the operands it needs. -/
def Arith.Faithful (ρ : String → Word) (e : Arith) : Prop := e.Each BinOp.Faithful ρ

theorem BinOp.faithful_iff_plain {op : BinOp} {ta tb : IntTy} {a b : Int}
    (h : op.InRange ta tb a b) : op.Faithful ta tb a b ↔ op.Plain ta tb a b := by
  cases op with
  | div | mod => exact iff_of_eq (if_pos h)
  | shr =>
      have ha : (BinOp.shr.operandTy ta tb).conv a = a := h
      by_cases ht : BinOp.shr.operandTy ta tb = .int
      · simp [Faithful, Plain, ht]
      · simp [Faithful, Plain, ht, ha]
  | _ => exact Iff.rfl

theorem Arith.faithful_iff_plain {e : Arith} {ρ : String → Word} (h : e.Each BinOp.InRange ρ) :
    e.Faithful ρ ↔ e.Each BinOp.Plain ρ := by
  induction e with
  | lit | lvar => exact Iff.rfl
  | paren e ih => exact ih h
  | binop op l r ihl ihr =>
      exact and_congr (ihl h.1) (and_congr (ihr h.2.1) (forall₄_congr fun a b ha hb =>
        BinOp.faithful_iff_plain (h.2.2 a b ha hb)))

/-- Lowering appends no line, and its text has Ruby's value modulo 2^64. -/
def Arith.Agrees (ctx : Ctx) (k : Nat) (c : CState) (ρ : String → Word) (e : Arith) : Prop :=
  ∃ text t v z, lower ctx .expr e.node k = .ok ⟨[], some text, k⟩ ∧
    text.typed c = some (t, v) ∧ e.ruby ρ = some z ∧ v ≡ z [ZMOD 2 ^ 64]

/-! ### One operator -/

/-- A value of C's stands for one of Ruby's: it is that, wrapped, and an `int` is exact. -/
structure Stands (t : IntTy) (v z : Int) : Prop where
  eq_conv : v = t.conv z
  exact : t = .int → InBits 31 z

namespace Stands

variable {t s : IntTy} {v z : Int}

theorem modEq (h : Stands t v z) : v ≡ z [ZMOD 2 ^ 64] := by
  rw [h.eq_conv]
  exact (IntTy.conv_modEq_iff rfl fun ht => (h.exact ht).mono (by decide)).mpr h.exact

/-- Converted to any type it is what that type makes of Ruby's value. -/
theorem conv_eq (h : Stands t v z) (s : IntTy) : s.conv v = s.conv z :=
  IntTy.conv_congr (h.modEq.of_dvd IntTy.width_dvd)

end Stands

/-- A right shift rounds down. -/
theorem BinOp.shiftLeft_neg {a n : Int} (hn : 0 ≤ n) : shiftLeft a (-n) = a / 2 ^ n.toNat := by
  unfold shiftLeft
  by_cases h : 0 ≤ -n
  · obtain rfl : n = 0 := by omega
    simp
  · rw [if_neg h, neg_neg]

/-- What an operator works on: operands that an `int` holds, and a count in range. -/
structure Operands (op : BinOp) (t : IntTy) (a b : Int) : Prop where
  left : t = .int → InBits 31 a
  right : t = .int → InBits 31 b
  count : op.isShift = true → 0 ≤ b ∧ b < 64

namespace Operands

variable {op : BinOp} {t : IntTy} {a b : Int}

theorem conv_left (h : Operands op t a b) : t.conv a ≡ a [ZMOD 2 ^ 64] :=
  (IntTy.conv_modEq_iff rfl fun ht => (h.left ht).mono (by decide)).mpr h.left

theorem conv_right (h : Operands op t a b) : t.conv b ≡ b [ZMOD 2 ^ 64] :=
  (IntTy.conv_modEq_iff rfl fun ht => (h.right ht).mono (by decide)).mpr h.right

theorem inBits_add (h : Operands op t a b) (ht : t = .int) : InBits 63 (a + b) := by
  obtain ⟨ha, hb⟩ := And.intro (h.left ht) (h.right ht)
  unfold InBits at ha hb ⊢
  omega

theorem inBits_sub (h : Operands op t a b) (ht : t = .int) : InBits 63 (a - b) := by
  obtain ⟨ha, hb⟩ := And.intro (h.left ht) (h.right ht)
  unfold InBits at ha hb ⊢
  omega

theorem inBits_mul (h : Operands op t a b) (ht : t = .int) : InBits 63 (a * b) :=
  Twos.inBits_mul (abs_le_of_inBits (h.left ht)) (abs_le_of_inBits (h.right ht)) (by decide)

/-- A shift of an `int` by less than its width. -/
theorem inBits_shl (h : Operands op t a b) (ht : t = .int) (hb : b < 32) :
    InBits 63 (a * 2 ^ b.toNat) := by
  refine Twos.inBits_mul (n := 31) (abs_le_of_inBits (h.left ht)) ?_ (by decide)
  rw [abs_of_pos (by positivity)]
  exact pow_le_pow_right₀ (by norm_num) (by omega)

theorem inBits_tdiv (h : Operands op t a b) (ht : t = .int) : InBits 63 (a.tdiv b) := by
  have ha := h.left ht
  have hle := Int.natAbs_tdiv_le_natAbs a b
  unfold InBits at ha ⊢
  omega

theorem inBits_tmod (h : Operands op t a b) (ht : t = .int) (hb : b ≠ 0) : InBits 31 (a.tmod b) := by
  have hfits := h.right ht
  have hlt : (a.tmod b).natAbs < b.natAbs := by
    rw [Int.natAbs_tmod]
    exact Nat.mod_lt _ (Int.natAbs_pos.mpr hb)
  unfold InBits at hfits ⊢
  omega

end Operands

section

variable {op : BinOp} {t ta tb : IntTy} {a b z raw va vb : Int}

/-- The value of an operator, wrapped, is Ruby's modulo 2^64. -/
def Right (t : IntTy) (raw : Option Int) (z : Int) : Prop :=
  ∃ v, raw = some v ∧ t.conv v ≡ z [ZMOD 2 ^ 64]

theorem right_some {v : Int} : Right t (some v) z ↔ t.conv v ≡ z [ZMOD 2 ^ 64] := by
  simp [Right]

theorem not_right_none : ¬ Right t none z := by
  simp [Right]

/-- A quotient or remainder, which C has by no zero. -/
theorem right_ite {y v : Int} :
    Right t (if y = 0 then none else some v) z ↔ y ≠ 0 ∧ t.conv v ≡ z [ZMOD 2 ^ 64] := by
  by_cases hy : y = 0
  · rw [if_pos hy]
    exact iff_of_false not_right_none fun hc => hc.1 hy
  · rw [if_neg hy, right_some]
    exact (and_iff_right hy).symm

theorem bitwise_right (f : Bool → Bool → Bool) (h : Operands op t a b) :
    t.conv (Int.bitwise f (t.conv a) (t.conv b)) ≡ Int.bitwise f a b [ZMOD 2 ^ 64] := by
  have hfits : t = .int → InBits 31 (Int.bitwise f a b) := fun ht =>
    inBits_bitwise f (h.left ht) (h.right ht)
  rw [IntTy.conv_modEq_iff (bitwise_modEq f h.conv_left h.conv_right)
    fun ht => (hfits ht).mono (by decide)]
  exact hfits

theorem shl_right_iff (h : Operands .shl t a b) :
    Right t (BinOp.shl.machine t (t.conv a) b) (a * 2 ^ b.toNat) ↔
      (t = .int → b < 32 ∧ InBits 31 (a * 2 ^ b.toNat)) := by
  obtain ⟨h₀, h₆₄⟩ := h.count rfl
  have hraw : t.conv a * 2 ^ b.toNat ≡ a * 2 ^ b.toNat [ZMOD 2 ^ 64] := h.conv_left.mul_right _
  by_cases hw : b < t.width
  · have hlt : t = .int → b < 32 := by
      rintro rfl
      exact hw
    rw [BinOp.machine, if_pos ⟨h₀, hw⟩, right_some,
      IntTy.conv_modEq_iff hraw fun ht => h.inBits_shl ht (hlt ht)]
    exact forall_congr' fun ht => (and_iff_right (hlt ht)).symm
  · have ht : t = .int := by
      by_contra ht
      exact hw (by rw [IntTy.width_eq ht]; exact h₆₄)
    subst ht
    rw [BinOp.machine, if_neg fun hc => hw hc.2]
    refine iff_of_false not_right_none fun hc => hw (hc rfl).1

theorem shr_right_iff (h : Operands .shr t a b) :
    Right t (BinOp.shr.machine t (t.conv a) b) (a / 2 ^ b.toNat) ↔
      if t = .int then b < 32 else 2 ^ (64 + b.toNat) ∣ a - t.conv a := by
  obtain ⟨h₀, h₆₄⟩ := h.count rfl
  by_cases ht : t = .int
  · subst ht
    rw [if_pos rfl, IntTy.conv_int (h.left rfl), BinOp.machine]
    by_cases hw : b < 32
    · rw [if_pos ⟨h₀, hw⟩, right_some, IntTy.conv_int (inBits_shiftRight (h.left rfl) _)]
      exact iff_of_true rfl hw
    · rw [if_neg fun hc => hw hc.2]
      exact iff_of_false not_right_none hw
  · have hraw := t.conv_modEq (t.conv a / 2 ^ b.toNat)
    rw [IntTy.width_eq ht] at hraw
    rw [if_neg ht, BinOp.machine, IntTy.width_eq ht, if_pos ⟨h₀, h₆₄⟩, right_some,
      ← shiftRight_modEq_iff (by omega) h.conv_left]
    exact ⟨hraw.symm.trans, hraw.trans⟩

theorem div_right_iff (h : Operands .div t a b) (hb : b ≠ 0) :
    Right t (BinOp.div.machine t (t.conv a) (t.conv b)) (a.fdiv b) ↔
      if t.conv a = a ∧ t.conv b = b then Rounds a b ∧ (t = .int → InBits 31 (a.fdiv b))
      else t.conv b ≠ 0 ∧ t.conv ((t.conv a).tdiv (t.conv b)) ≡ a.fdiv b [ZMOD 2 ^ 64] := by
  rw [BinOp.machine]
  by_cases hin : t.conv a = a ∧ t.conv b = b
  · rw [if_pos hin, hin.1, hin.2, if_neg hb, right_some]
    by_cases hr : Rounds a b
    · have heq : a.fdiv b = a.tdiv b := by rw [fdiv_eq hb, if_pos hr, sub_zero]
      rw [heq, IntTy.conv_modEq_iff rfl h.inBits_tdiv, and_iff_right hr]
    · -- one below the truncated quotient, whatever the width
      have heq : a.fdiv b = a.tdiv b - 1 := by rw [fdiv_eq hb, if_neg hr]
      refine iff_of_false (fun hc => ?_) fun hc => hr hc.1
      have hoff : a.tdiv b ≡ a.tdiv b - 1 [ZMOD 2 ^ t.width] :=
        (t.conv_modEq _).symm.trans (heq ▸ hc.of_dvd IntTy.width_dvd)
      have hone : (2 : Int) ^ t.width ∣ 1 := by
        have := hoff.symm.dvd
        rwa [sub_sub_cancel] at this
      cases t <;> revert hone <;> decide
  · rw [if_neg hin, right_ite]

theorem mod_right_iff (h : Operands .mod t a b) (hb : b ≠ 0) :
    Right t (BinOp.mod.machine t (t.conv a) (t.conv b)) (a.fmod b) ↔
      if t.conv a = a ∧ t.conv b = b then Rounds a b
      else t.conv b ≠ 0 ∧ t.conv ((t.conv a).tmod (t.conv b)) ≡ a.fmod b [ZMOD 2 ^ 64] := by
  rw [BinOp.machine]
  by_cases hin : t.conv a = a ∧ t.conv b = b
  · rw [if_pos hin, hin.1, hin.2, if_neg hb, right_some]
    by_cases hr : Rounds a b
    · have heq : a.fmod b = a.tmod b := by rw [fmod_eq, if_pos hr, add_zero]
      have hfits : t = .int → InBits 31 (a.tmod b) := fun ht => h.inBits_tmod ht hb
      rw [heq, IntTy.conv_modEq_iff rfl fun ht => (hfits ht).mono (by decide)]
      exact iff_of_true hfits hr
    · -- a divisor off, and no divisor is a multiple of the modulus
      have heq : a.fmod b = a.tmod b + b := by rw [fmod_eq, if_neg hr]
      refine iff_of_false (fun hc => ?_) hr
      have hoff : a.tmod b ≡ a.tmod b + b [ZMOD 2 ^ t.width] :=
        (t.conv_modEq _).symm.trans (heq ▸ hc.of_dvd IntTy.width_dvd)
      have hdvd : (2 : Int) ^ t.width ∣ b := by
        have := hoff.dvd
        rwa [add_sub_cancel_left] at this
      have hconv : t.conv b = t.conv 0 := IntTy.conv_congr (Int.modEq_zero_iff_dvd.mpr hdvd)
      rw [hin.2] at hconv
      exact hb (hconv.trans (by cases t <;> rfl))
  · rw [if_neg hin, right_ite]

/-- What an operator's machine operation is given for its right operand. -/
def BinOp.rightOperand (op : BinOp) (t : IntTy) (b : Int) : Int :=
  if op.isShift then b else t.conv b

/-- **One operator.**  On operands that stand for Ruby's, the machine gives Ruby's value exactly
where the operator is faithful. -/
theorem BinOp.right_iff (h : Operands op (op.operandTy ta tb) a b) (hz : op.integer a b = some z) :
    Right (op.operandTy ta tb) (op.machine (op.operandTy ta tb) ((op.operandTy ta tb).conv a)
      (op.rightOperand (op.operandTy ta tb) b)) z ↔ op.Faithful ta tb a b := by
  cases op with
  | add =>
      obtain rfl := Option.some.inj hz
      exact right_some.trans (IntTy.conv_modEq_iff (h.conv_left.add h.conv_right) h.inBits_add)
  | sub =>
      obtain rfl := Option.some.inj hz
      exact right_some.trans (IntTy.conv_modEq_iff (h.conv_left.sub h.conv_right) h.inBits_sub)
  | mul =>
      obtain rfl := Option.some.inj hz
      exact right_some.trans (IntTy.conv_modEq_iff (h.conv_left.mul h.conv_right) h.inBits_mul)
  | band =>
      obtain rfl := Option.some.inj hz
      refine iff_of_true (right_some.mpr ?_) trivial
      have hr := bitwise_right and h
      rwa [Int.bitwise_and] at hr
  | bor =>
      obtain rfl := Option.some.inj hz
      refine iff_of_true (right_some.mpr ?_) trivial
      have hr := bitwise_right or h
      rwa [Int.bitwise_or] at hr
  | bxor =>
      obtain rfl := Option.some.inj hz
      refine iff_of_true (right_some.mpr ?_) trivial
      have hr := bitwise_right xor h
      rwa [Int.bitwise_xor] at hr
  | div =>
      obtain ⟨hb, hz⟩ := Option.ite_none_left_eq_some.mp hz
      obtain rfl := Option.some.inj hz
      exact div_right_iff h hb
  | mod =>
      obtain ⟨hb, hz⟩ := Option.ite_none_left_eq_some.mp hz
      obtain rfl := Option.some.inj hz
      exact mod_right_iff h hb
  | shl =>
      obtain rfl := Option.some.inj hz
      rw [shiftLeft, if_pos (h.count rfl).1]
      exact shl_right_iff h
  | shr =>
      obtain rfl := Option.some.inj hz
      rw [shiftLeft_neg (h.count rfl).1]
      exact shr_right_iff h
  | _ => cases hz

/-- A faithful operator whose result is an `int` gives one that fits. -/
theorem BinOp.Faithful.fits (hf : op.Faithful ta tb a b)
    (h : Operands op (op.operandTy ta tb) a b) (hz : op.integer a b = some z)
    (ht : op.operandTy ta tb = .int) : InBits 31 z := by
  have hconv : ∀ {c : Int}, InBits 31 c → (op.operandTy ta tb).conv c = c := fun hc => by
    rw [ht]
    exact IntTy.conv_int hc
  cases op with
  | add | sub | mul =>
      obtain rfl := Option.some.inj hz
      exact hf ht
  | band | bor | bxor =>
      obtain rfl := Option.some.inj hz
      first
      | exact Int.bitwise_and ▸ inBits_bitwise and (h.left ht) (h.right ht)
      | exact Int.bitwise_or ▸ inBits_bitwise or (h.left ht) (h.right ht)
      | exact Int.bitwise_xor ▸ inBits_bitwise xor (h.left ht) (h.right ht)
  | div =>
      obtain ⟨-, hz⟩ := Option.ite_none_left_eq_some.mp hz
      obtain rfl := Option.some.inj hz
      have hin := And.intro (hconv (h.left ht)) (hconv (h.right ht))
      rw [Faithful, if_pos hin] at hf
      exact hf.2 ht
  | mod =>
      obtain ⟨hb, hz⟩ := Option.ite_none_left_eq_some.mp hz
      obtain rfl := Option.some.inj hz
      have hin := And.intro (hconv (h.left ht)) (hconv (h.right ht))
      rw [Faithful, if_pos hin] at hf
      rw [fmod_eq, if_pos hf, add_zero]
      exact h.inBits_tmod ht hb
  | shl =>
      obtain rfl := Option.some.inj hz
      rw [shiftLeft, if_pos (h.count rfl).1]
      exact (hf ht).2
  | shr =>
      obtain rfl := Option.some.inj hz
      rw [shiftLeft_neg (h.count rfl).1]
      exact inBits_shiftRight (h.left ht) _
  | _ => cases hz

/-- The operands of an operator whose texts stand for Ruby's values. -/
theorem Stands.operands (ha : Stands ta va a) (hb : Stands tb vb b)
    (hcount : op.isShift = true → 0 ≤ b ∧ b < 64) : Operands op (op.operandTy ta tb) a b := by
  by_cases hs : op.isShift = true
  · have hty : op.operandTy ta tb = ta := if_pos hs
    rw [hty]
    refine ⟨ha.exact, fun _ => ?_, hcount⟩
    obtain ⟨h₀, h₆₄⟩ := hcount hs
    exact ⟨by omega, by omega⟩
  · have hty : op.operandTy ta tb = ta.join tb := if_neg hs
    rw [hty]
    exact ⟨fun ht => ha.exact (IntTy.join_eq_int ht).1, fun ht => hb.exact (IntTy.join_eq_int ht).2,
      hcount⟩

/-- The count of a shift is the same in C. -/
theorem Stands.count_eq (hb : Stands tb vb b) (h₀ : 0 ≤ b) (h₆₄ : b < 64) : vb = b := by
  rw [hb.eq_conv]
  cases tb with
  | int => exact IntTy.conv_int ⟨by omega, by omega⟩
  | s64 => exact (bmod_eq_self_iff 63 b).mpr ⟨by omega, by omega⟩
  | u64 => exact Int.emod_eq_of_lt h₀ (by omega)

theorem BinOp.resultTy_of_integer (hz : op.integer a b = some z) :
    op.resultTy ta tb = op.operandTy ta tb := by
  have hop : op.comparison = false := by
    cases op <;> first | rfl | cases hz
  rw [resultTy, hop, if_neg Bool.false_ne_true]

/-- C's operator in terms of Ruby's operands. -/
theorem BinOp.typed_eq (ha : Stands ta va a) (hb : Stands tb vb b)
    (hcount : op.isShift = true → 0 ≤ b ∧ b < 64) (hz : op.integer a b = some z) :
    op.typed (ta, va) (tb, vb) =
      (op.machine (op.operandTy ta tb) ((op.operandTy ta tb).conv a)
        (op.rightOperand (op.operandTy ta tb) b)).map
        fun v => (op.operandTy ta tb, (op.operandTy ta tb).conv v) := by
  have hres : op.resultTy ta tb = op.operandTy ta tb := resultTy_of_integer hz
  have hy : (if op.isShift then vb else (op.operandTy ta tb).conv vb) =
      op.rightOperand (op.operandTy ta tb) b := by
    unfold rightOperand
    by_cases hs : op.isShift = true
    · rw [if_pos hs, if_pos hs]
      exact hb.count_eq (hcount hs).1 (hcount hs).2
    · rw [if_neg hs, if_neg hs]
      exact hb.conv_eq _
  rw [typed, hres]
  dsimp only
  rw [hy, ha.conv_eq]

/-- The value of the operator stands for Ruby's again. -/
theorem Stands.of_right {raw : Int} (h : op.Faithful ta tb a b)
    (hops : Operands op (op.operandTy ta tb) a b) (hz : op.integer a b = some z)
    (hraw : (op.operandTy ta tb).conv raw ≡ z [ZMOD 2 ^ 64]) :
    Stands (op.operandTy ta tb) ((op.operandTy ta tb).conv raw) z where
  eq_conv := by
    rw [← IntTy.conv_congr (hraw.of_dvd IntTy.width_dvd)]
    exact (IntTy.conv_congr (IntTy.conv_modEq _ raw)).symm
  exact := h.fits hops hz

end

/-! ### Whole trees -/

namespace Arith

variable {ctx : Ctx} {c : CState} {ρ : String → Word}

/-- Lowering a tree appends nothing and keeps its shape. -/
theorem lower_node (ctx : Ctx) (pos : Pos) (e : Arith) (k : Nat) :
    lower ctx pos e.node k = .ok ⟨[], some (e.text ctx), k⟩ := by
  induction e generalizing pos with
  | lit v => rfl
  | lvar x => rfl
  | paren e ih =>
      rw [node, lower, lowerAll, ih]
      rfl
  | binop op l r ihl ihr =>
      rw [node, lower, ihl]
      change Except.bind (lower ctx .expr r.node k) _ = _
      rw [ihr]
      rfl

theorem agrees_iff (k : Nat) (e : Arith) :
    e.Agrees ctx k c ρ ↔
      ∃ t v z, (e.text ctx).typed c = some (t, v) ∧ e.ruby ρ = some z ∧ v ≡ z [ZMOD 2 ^ 64] := by
  unfold Agrees
  rw [lower_node]
  constructor
  · rintro ⟨text, t, v, z, hlow, h⟩
    have htext : e.text ctx = text := by
      injection hlow with hlow
      injection hlow with _ htext
      exact Option.some.inj htext
    exact htext ▸ ⟨t, v, z, h⟩
  · rintro ⟨t, v, z, h⟩
    exact ⟨_, t, v, z, rfl, h⟩

/-- The locals of the tree hold in C what they hold in Ruby. -/
def Loaded (ctx : Ctx) (c : CState) (ρ : String → Word) (e : Arith) : Prop :=
  ∀ x ∈ e.locals, ctx.localWord c x = ρ x

theorem typed_lvar {x : String} (h : Loaded ctx c ρ (.lvar x)) :
    (text ctx (.lvar x)).typed c = some (.s64, (ρ x).toInt) := by
  have hx := h x (List.mem_singleton.mpr rfl)
  unfold Ctx.localWord at hx
  rw [text, Ctx.readLocal]
  by_cases hcap : safeDup x ∈ ctx.captures
  · rw [if_pos hcap] at hx ⊢
    rw [CExpr.typed, hx]
  · rw [if_neg hcap] at hx ⊢
    rw [CExpr.typed, hx]

theorem stands_word (w : Word) : Stands .s64 w.toInt w.toInt :=
  ⟨((bmod_eq_self_iff 63 _).mpr (toInt_inBits w)).symm, nofun⟩

theorem stands_lit (v : Int) : Stands (litType v) ((litType v).conv v) v := by
  refine ⟨rfl, fun ht => ?_⟩
  unfold litType at ht
  split_ifs at ht with h
  exact ⟨by omega, by omega⟩

section

variable {op : BinOp} {l r : Arith} {va vb a b z : Int}

/-- The text of a tree stands for the value of Ruby's. -/
def Holds (ctx : Ctx) (c : CState) (e : Arith) (z : Int) : Prop :=
  ∃ v, (e.text ctx).typed c = some (e.ty, v) ∧ Stands e.ty v z

/-- The value of an operator at the root, over operands that hold. -/
theorem typed_binop (hva : (l.text ctx).typed c = some (l.ty, va))
    (hvb : (r.text ctx).typed c = some (r.ty, vb)) (hsa : Stands l.ty va a)
    (hsb : Stands r.ty vb b) (hcount : op.isShift = true → 0 ≤ b ∧ b < 64)
    (hz : op.integer a b = some z) :
    (text ctx (.binop op l r)).typed c =
      (op.machine (op.operandTy l.ty r.ty) ((op.operandTy l.ty r.ty).conv a)
        (op.rightOperand (op.operandTy l.ty r.ty) b)).map
        fun v => (op.operandTy l.ty r.ty, (op.operandTy l.ty r.ty).conv v) := by
  rw [← BinOp.typed_eq hsa hsb hcount hz, text, CExpr.typed, hva, hvb]
  rfl

theorem holds_binop (hl : Holds ctx c l a) (hr : Holds ctx c r b)
    (hcount : op.isShift = true → 0 ≤ b ∧ b < 64) (hz : op.integer a b = some z)
    (hop : op.Faithful l.ty r.ty a b) : Holds ctx c (.binop op l r) z := by
  obtain ⟨va, hva, hsa⟩ := hl
  obtain ⟨vb, hvb, hsb⟩ := hr
  have hops := hsa.operands hsb hcount
  obtain ⟨raw, hraw, hmod⟩ := (BinOp.right_iff hops hz).mpr hop
  have hty : ty (.binop op l r) = op.operandTy l.ty r.ty := BinOp.resultTy_of_integer hz
  refine ⟨(op.operandTy l.ty r.ty).conv raw, ?_, ?_⟩
  · rw [typed_binop hva hvb hsa hsb hcount hz, hraw, hty]
    rfl
  · rw [hty]
    exact Stands.of_right hop hops hz hmod

/-- Where the root has Ruby's value, its operator is faithful. -/
theorem faithful_of_root {t : IntTy} {v : Int} (hl : Holds ctx c l a) (hr : Holds ctx c r b)
    (hcount : op.isShift = true → 0 ≤ b ∧ b < 64) (hz : op.integer a b = some z)
    (hv : (text ctx (.binop op l r)).typed c = some (t, v)) (hmod : v ≡ z [ZMOD 2 ^ 64]) :
    op.Faithful l.ty r.ty a b := by
  obtain ⟨va, hva, hsa⟩ := hl
  obtain ⟨vb, hvb, hsb⟩ := hr
  rw [typed_binop hva hvb hsa hsb hcount hz] at hv
  obtain ⟨raw, hraw, htv⟩ := Option.map_eq_some_iff.mp hv
  obtain ⟨rfl, rfl⟩ := Prod.mk.inj htv
  exact (BinOp.right_iff (hsa.operands hsb hcount) hz).mp ⟨raw, hraw, hmod⟩

end

/-- What the tree is evaluated in: its locals are loaded, its shift counts are in range, and Ruby
gives it a value. -/
structure Evaluated (ctx : Ctx) (c : CState) (ρ : String → Word) (e : Arith) (z : Int) : Prop where
  loaded : Loaded ctx c ρ e
  counted : e.Counted ρ
  ruby : e.ruby ρ = some z

namespace Evaluated

variable {op : BinOp} {l r e : Arith} {z : Int}

/-- So are the operands of an operator. -/
theorem operands (h : Evaluated ctx c ρ (.binop op l r) z) :
    ∃ a b, Evaluated ctx c ρ l a ∧ Evaluated ctx c ρ r b ∧
      (op.isShift = true → 0 ≤ b ∧ b < 64) ∧ op.integer a b = some z := by
  obtain ⟨a, ha, hz⟩ := Option.bind_eq_some_iff.mp h.ruby
  obtain ⟨b, hb, hz⟩ := Option.bind_eq_some_iff.mp hz
  obtain ⟨hcl, hcr, hcount⟩ := h.counted
  exact ⟨a, b, ⟨fun x hx => h.loaded x (List.mem_append_left _ hx), hcl, ha⟩,
    ⟨fun x hx => h.loaded x (List.mem_append_right _ hx), hcr, hb⟩,
    fun hs => hcount hs b hb, hz⟩

theorem paren (h : Evaluated ctx c ρ (.paren e) z) : Evaluated ctx c ρ e z :=
  ⟨h.loaded, h.counted, h.ruby⟩

/-- **A faithful tree.**  The value of its text stands for Ruby's. -/
theorem holds (h : Evaluated ctx c ρ e z) (hf : e.Faithful ρ) : Holds ctx c e z := by
  induction e generalizing z with
  | lit v =>
      obtain rfl := Option.some.inj h.ruby
      exact ⟨_, rfl, stands_lit _⟩
  | lvar x =>
      obtain rfl := Option.some.inj h.ruby
      exact ⟨_, typed_lvar h.loaded, stands_word _⟩
  | paren e ih => exact ih h.paren hf
  | binop op l r ihl ihr =>
      obtain ⟨a, b, hl, hr, hcount, hz⟩ := h.operands
      obtain ⟨hfl, hfr, hop⟩ := hf
      exact holds_binop (ihl hl hfl) (ihr hr hfr) hcount hz (hop a b hl.ruby hr.ruby)

theorem agrees_of_faithful (h : Evaluated ctx c ρ e z) (hf : e.Faithful ρ) (k : Nat) :
    e.Agrees ctx k c ρ := by
  obtain ⟨v, hv, hs⟩ := h.holds hf
  exact (agrees_iff k e).mpr ⟨e.ty, v, z, hv, h.ruby, hs.modEq⟩

/-- The tree and its subexpressions agree exactly where every operator is faithful. -/
theorem subtrees_agree_iff (h : Evaluated ctx c ρ e z) (k : Nat) :
    (∀ s ∈ e.subtrees, s.Agrees ctx k c ρ) ↔ e.Faithful ρ := by
  induction e generalizing z with
  | lit v =>
      refine ⟨fun _ => trivial, fun hf s hs => ?_⟩
      obtain rfl := List.mem_singleton.mp hs
      exact h.agrees_of_faithful hf k
  | lvar x =>
      refine ⟨fun _ => trivial, fun hf s hs => ?_⟩
      obtain rfl := List.mem_singleton.mp hs
      exact h.agrees_of_faithful hf k
  | paren e ih =>
      rw [subtrees, List.forall_mem_cons, ih h.paren]
      exact ⟨And.right, fun hf => ⟨h.agrees_of_faithful (e := .paren e) hf k, hf⟩⟩
  | binop op l r ihl ihr =>
      obtain ⟨a, b, hl, hr, hcount, hz⟩ := h.operands
      rw [subtrees, List.forall_mem_cons, List.forall_mem_append, ihl hl, ihr hr]
      constructor
      · rintro ⟨hroot, hfl, hfr⟩
        refine ⟨hfl, hfr, fun a' b' ha' hb' => ?_⟩
        obtain rfl : a = a' := Option.some.inj (hl.ruby.symm.trans ha')
        obtain rfl : b = b' := Option.some.inj (hr.ruby.symm.trans hb')
        obtain ⟨t, v, z', hv, hz', hmod⟩ := (agrees_iff k _).mp hroot
        obtain rfl : z = z' := Option.some.inj (h.ruby.symm.trans hz')
        exact faithful_of_root (hl.holds hfl) (hr.holds hfr) hcount hz hv hmod
      · intro hf
        exact ⟨h.agrees_of_faithful hf k, hf.1, hf.2.1⟩

end Evaluated

end Arith

/-- **Arithmetic.**  For every tree whose shift counts are in range and to which Ruby gives a
value, and every C state that holds the locals: the generated C has Ruby's value modulo 2^64, at
the tree and at all of its subexpressions, exactly where every operator is faithful; with the
operands of `/`, `%` and `>>` in range that is exactly where every operator is plain. -/
theorem arith_faithful_iff (ctx : Ctx) (k : Nat) (c : CState) (ρ : String → Word) (e : Arith)
    (hlocals : ∀ x ∈ e.locals, ctx.localWord c x = ρ x) (hcounts : e.Counted ρ)
    (hruby : (e.ruby ρ).isSome) :
    ((∀ s ∈ e.subtrees, s.Agrees ctx k c ρ) ↔ e.Faithful ρ) ∧
      (e.Each BinOp.InRange ρ →
        ((∀ s ∈ e.subtrees, s.Agrees ctx k c ρ) ↔ e.Each BinOp.Plain ρ)) := by
  obtain ⟨z, hz⟩ := Option.isSome_iff_exists.mp hruby
  have hiff := Arith.Evaluated.subtrees_agree_iff (e := e) ⟨hlocals, hcounts, hz⟩ k
  exact ⟨hiff, fun hrange => hiff.trans (Arith.faithful_iff_plain hrange)⟩

/-- `n / 2 + (1 << 4)`. -/
def sampleTree : Arith :=
  .binop .add (.binop .div (.lvar "n") (.lit 2)) (.paren (.binop .shl (.lit 1) (.lit 4)))

def sampleLocals : String → Word := fun _ => 9

def sampleState : CState := { emptyC with vars := fun _ => 9 }

theorem sampleTree_counted : sampleTree.Counted sampleLocals := by
  refine ⟨⟨trivial, trivial, nofun⟩, ⟨trivial, trivial, fun _ n hn => ?_⟩, nofun⟩
  obtain rfl := Option.some.inj hn
  decide

theorem sampleTree_inRange : sampleTree.Each BinOp.InRange sampleLocals := by
  refine ⟨⟨trivial, trivial, fun a b ha hb => ?_⟩, ⟨trivial, trivial, fun _ _ _ _ => trivial⟩,
    fun _ _ _ _ => trivial⟩
  obtain rfl := Option.some.inj ha
  obtain rfl := Option.some.inj hb
  exact ⟨by decide, by decide⟩

theorem sampleTree_plain : sampleTree.Each BinOp.Plain sampleLocals := by
  refine ⟨⟨trivial, trivial, fun a b ha hb => ?_⟩, ⟨trivial, trivial, fun a b ha hb => ?_⟩,
    fun _ _ _ _ ht => nomatch ht⟩
  · obtain rfl := Option.some.inj ha
    obtain rfl := Option.some.inj hb
    exact ⟨by decide, nofun⟩
  · obtain rfl := Option.some.inj ha
    obtain rfl := Option.some.inj hb
    exact fun _ => by decide

theorem arith_faithful_sample :
    (∀ x ∈ sampleTree.locals, emptyCtx.localWord sampleState x = sampleLocals x) ∧
      sampleTree.Counted sampleLocals ∧ sampleTree.ruby sampleLocals = some 20 ∧
      sampleTree.Each BinOp.InRange sampleLocals ∧
      ∀ s ∈ sampleTree.subtrees, s.Agrees emptyCtx 0 sampleState sampleLocals := by
  have hlocals : ∀ x ∈ sampleTree.locals, emptyCtx.localWord sampleState x = sampleLocals x :=
    fun _ _ => rfl
  have hruby : sampleTree.ruby sampleLocals = some 20 := by decide
  refine ⟨hlocals, sampleTree_counted, hruby, sampleTree_inRange, ?_⟩
  exact ((arith_faithful_iff emptyCtx 0 sampleState sampleLocals sampleTree hlocals
    sampleTree_counted (by rw [hruby]; rfl)).2 sampleTree_inRange).mpr sampleTree_plain

/-- A value that is not Ruby's modulo 2^64. -/
theorem Arith.not_agrees {ctx : Ctx} {c : CState} {ρ : String → Word} {e : Arith} {t : IntTy}
    {v z : Int} (k : Nat) (hv : (e.text ctx).typed c = some (t, v)) (hz : e.ruby ρ = some z)
    (hne : ¬ v ≡ z [ZMOD 2 ^ 64]) : ¬ e.Agrees ctx k c ρ := by
  rw [agrees_iff]
  rintro ⟨t', v', z', hv', hz', hmod⟩
  obtain ⟨-, rfl⟩ := Prod.mk.inj (Option.some.inj (hv.symm.trans hv'))
  obtain rfl := Option.some.inj (hz.symm.trans hz')
  exact hne hmod

/-- `-7 / 2` is -3 in C and -4 in Ruby; `2147483647 + 1` is added as an `int`. -/
theorem arith_unfaithful :
    (∃ e : Arith, e = .binop .div (.lit (-7)) (.lit 2) ∧ e.ruby sampleLocals = some (-4) ∧
      (e.text emptyCtx).typed emptyC = some (.int, -3) ∧
      ¬ e.Agrees emptyCtx 0 emptyC sampleLocals) ∧
    ∃ e : Arith, e = .binop .add (.lit 2147483647) (.lit 1) ∧
      e.ruby sampleLocals = some 2147483648 ∧
      (e.text emptyCtx).typed emptyC = some (.int, -2147483648) ∧
      ¬ e.Agrees emptyCtx 0 emptyC sampleLocals := by
  refine ⟨⟨_, rfl, by decide, by decide, ?_⟩, ⟨_, rfl, by decide, by decide, ?_⟩⟩
  · exact Arith.not_agrees 0 (t := .int) (v := -3) (z := -4) (by decide) (by decide) (by decide)
  · exact Arith.not_agrees 0 (t := .int) (v := -2147483648) (z := 2147483648) (by decide)
      (by decide) (by decide)

end SpinelEbpf.Codegen

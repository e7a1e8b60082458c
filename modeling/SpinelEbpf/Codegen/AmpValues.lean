import SpinelEbpf.Codegen.AmpTarget

/-!
# Codegen — What an AMP value stands for

A C value of the AMP target against the integer that Ruby has in its place, for integers that fit
into 32 bits.  `ampTy` is the C type of a text and `Denotes` the relation: a value is right modulo
2^32 whatever its type, and right altogether except that widening a `__u32` to 64 bits, or ordering
it, forgets the sign.  `Denotes.ring` and `Denotes.comparison` are the operators at their common
type.
-/

namespace SpinelEbpf.Codegen
open Outcome

/-! ### 32-bit values in 64-bit words -/

/-- A signed 32-bit value. -/
def InRange (w : Word) : Prop := -2 ^ 31 ≤ w.toInt ∧ w.toInt < 2 ^ 31

instance (w : Word) : Decidable (InRange w) := inferInstanceAs (Decidable (_ ∧ _))

variable {w : Word} {op : BinOp}

theorem toInt_setWidth_32 (h : InRange w) : (w.setWidth 32).toInt = w.toInt := by
  obtain ⟨hl, hu⟩ := h
  have hw := w.isLt
  rw [BitVec.toInt_eq_toNat_cond] at hl hu ⊢
  rw [BitVec.toInt_eq_toNat_cond, BitVec.toNat_setWidth]
  split_ifs at hl hu ⊢ <;> omega

theorem toNat_setWidth_32 (h : InRange w) :
    ((w.setWidth 32).toNat : Int) = if 0 ≤ w.toInt then w.toInt else w.toInt + 2 ^ 32 := by
  obtain ⟨hl, hu⟩ := h
  have hw := w.isLt
  rw [BitVec.toInt_eq_toNat_cond] at hl hu ⊢
  rw [BitVec.toNat_setWidth]
  split_ifs at hl hu ⊢ <;> omega

/-- Sign extension undoes the truncation of a 32-bit value. -/
theorem signExtend_setWidth_32 (h : InRange w) :
    (w.setWidth 32).signExtend 64 = w := by
  rw [← BitVec.toInt_inj, BitVec.toInt_signExtend_of_le (by omega), toInt_setWidth_32 h]

/-- Zero extension undoes the truncation of a 32-bit value that is not negative. -/
theorem zeroExtend_setWidth_32 (h : InRange w) (hn : 0 ≤ w.toInt) :
    (w.setWidth 32).setWidth 64 = w := by
  have hnat := toNat_setWidth_32 h
  rw [if_pos hn] at hnat
  have hw := w.isLt
  rw [BitVec.toInt_eq_toNat_cond] at hn hnat
  rw [← BitVec.toNat_inj, BitVec.toNat_setWidth]
  split_ifs at hn hnat <;> omega

theorem setWidth_widen (v : CVal) : v.widen.setWidth 32 = v.narrow := by
  cases v with
  | int b =>
      refine BitVec.eq_of_getLsbD_eq fun i hi => ?_
      have hi' : i < 64 := by omega
      simp only [CVal.widen, CVal.narrow, BitVec.getLsbD_setWidth, BitVec.getLsbD_signExtend, hi,
        hi', decide_true, Bool.true_and, if_true]
  | u32 b => simp [CVal.widen, CVal.narrow]
  | s64 b => rfl

/-- `+ - *`. -/
def BinOp.ring : BinOp → Bool
  | .add | .sub | .mul => true
  | _ => false

theorem setWidth_compute (hop : op.ring = true) (signed signed' : Bool) (a b : Word) :
    (op.compute signed a b).setWidth 32 =
      op.compute signed' (a.setWidth 32) (b.setWidth 32) := by
  cases op with
  | add => exact BitVec.setWidth_add a b (by omega)
  | mul => exact BitVec.setWidth_mul a b (by omega)
  | sub =>
      have ha := a.isLt
      have hb := b.isLt
      rw [← BitVec.toNat_inj]
      simp only [BinOp.compute, BitVec.toNat_setWidth, BitVec.toNat_sub]
      omega
  | _ => exact nomatch hop

/-! ### Comparisons at 32 bits -/

variable {a b : Word}

theorem beq_setWidth_32 (ha : InRange a) (hb : InRange b) :
    (a.setWidth 32 == b.setWidth 32) = (a == b) := by
  rw [Bool.eq_iff_iff, beq_iff_eq, beq_iff_eq, ← BitVec.toInt_inj, toInt_setWidth_32 ha,
    toInt_setWidth_32 hb, BitVec.toInt_inj]

theorem compare_signed (op : BinOp) (ha : InRange a) (hb : InRange b) :
    op.compare true (a.setWidth 32) (b.setWidth 32) = op.compare true a b := by
  cases op <;>
    simp [BinOp.compare, beq_setWidth_32 ha hb, bne, BitVec.slt_eq_decide, BitVec.sle_eq_decide,
      toInt_setWidth_32 ha, toInt_setWidth_32 hb]

theorem ult_setWidth_32 (ha : InRange a) (hb : InRange b)
    (hsign : 0 ≤ a.toInt ↔ 0 ≤ b.toInt) :
    (a.setWidth 32).ult (b.setWidth 32) = a.slt b := by
  have hna := toNat_setWidth_32 ha
  have hnb := toNat_setWidth_32 hb
  rw [BitVec.ult, BitVec.slt_eq_decide, decide_eq_decide]
  split_ifs at hna hnb <;> omega

theorem ule_setWidth_32 (ha : InRange a) (hb : InRange b)
    (hsign : 0 ≤ a.toInt ↔ 0 ≤ b.toInt) :
    (a.setWidth 32).ule (b.setWidth 32) = a.sle b := by
  have hna := toNat_setWidth_32 ha
  have hnb := toNat_setWidth_32 hb
  rw [BitVec.ule, BitVec.sle_eq_decide, decide_eq_decide]
  split_ifs at hna hnb <;> omega

/-- Equality does not depend on the sign, and the order is the signed one between values of one
sign. -/
theorem compare_unsigned (ha : InRange a) (hb : InRange b)
    (hsign : op = .eq ∨ op = .ne ∨ (0 ≤ a.toInt ↔ 0 ≤ b.toInt)) :
    op.compare false (a.setWidth 32) (b.setWidth 32) = op.compare true a b := by
  rcases hsign with rfl | rfl | hsign
  · exact beq_setWidth_32 ha hb
  · simp [BinOp.compare, beq_setWidth_32 ha hb, bne]
  cases op with
  | eq => exact beq_setWidth_32 ha hb
  | ne => simp [BinOp.compare, beq_setWidth_32 ha hb, bne]
  | lt => exact ult_setWidth_32 ha hb hsign
  | gt => exact ult_setWidth_32 hb ha hsign.symm
  | le => exact ule_setWidth_32 ha hb hsign
  | ge => exact ule_setWidth_32 hb ha hsign.symm
  | _ => rfl

/-! ### Types of texts -/

/-- A C type. -/
inductive CTy where
  | int
  | u32
  | s64
  deriving DecidableEq, Repr

/-- The common type of two operands. -/
def CTy.join : CTy → CTy → CTy
  | .int, .int => .int
  | .s64, _    => .s64
  | _, .s64    => .s64
  | _, _       => .u32

def CVal.ty : CVal → CTy
  | .int _ => .int
  | .u32 _ => .u32
  | .s64 _ => .s64

mutual

/-- The C type of a node's text. -/
def ampTy : Node → CTy
  | .int v => if -2 ^ 31 < v ∧ v < 2 ^ 31 then .int else .s64
  | .lvar _ | .lwrite .. | .ifNode .. => .s64
  | .ivar _ | .iwrite .. | .iopwrite .. => .u32
  | .binop _ l r => (ampTy l).join (ampTy r)
  | .paren body => ampTyLast body
  | _ => .int

def ampTyLast : List Node → CTy
  | []      => .int
  | n :: ns =>
      match ns with
      | [] => ampTy n
      | _  => ampTyLast ns

end

/-- The C value `x`, of type `ty`, stands for the integer `w`: modulo 2^32, and if it is a 64-bit
value that is wanted in `full`, exactly. -/
structure Denotes (full : Bool) (ty : CTy) (w : Word) (x : CVal) : Prop where
  typed : x.ty = ty
  low : x.narrow = w.setWidth 32
  exact : full = true → ty = .s64 → x.widen = w

namespace Denotes

variable {full : Bool} {ty tl tr : CTy} {a b : Word} {x y : CVal}

theorem int_eq (h : Denotes full .int w x) : x = .int (w.setWidth 32) := by
  obtain ⟨hty, hlow, _⟩ := h
  cases x with
  | int b => exact congrArg _ hlow
  | u32 b => exact nomatch hty
  | s64 b => exact nomatch hty

theorem u32_eq (h : Denotes full .u32 w x) : x = .u32 (w.setWidth 32) := by
  obtain ⟨hty, hlow, _⟩ := h
  cases x with
  | int b => exact nomatch hty
  | u32 b => exact congrArg _ hlow
  | s64 b => exact nomatch hty

/-- The conversion to 64 bits loses the sign of a `__u32` and nothing else. -/
theorem widen (h : Denotes true ty w x) (hr : InRange w) (hn : ty = .u32 → 0 ≤ w.toInt) :
    x.widen = w := by
  cases ty with
  | int => rw [h.int_eq]; exact signExtend_setWidth_32 hr
  | u32 => rw [h.u32_eq]; exact zeroExtend_setWidth_32 hr (hn rfl)
  | s64 => exact h.exact rfl rfl

theorem ofInt (v : Int) (full : Bool) (c : AmpState) :
    Denotes full (ampTy (.int v)) (.ofInt 64 v) (AmpExpr.eval (.int v) c) := by
  have hlow : BitVec.setWidth 32 (BitVec.ofInt 64 v) = BitVec.ofInt 32 v := by
    rw [← BitVec.toNat_inj, BitVec.toNat_setWidth, BitVec.toNat_ofInt, BitVec.toNat_ofInt]
    omega
  unfold ampTy AmpExpr.eval
  split_ifs
  · exact ⟨rfl, hlow.symm, fun _ he => nomatch he⟩
  · exact ⟨rfl, rfl, fun _ _ => rfl⟩

theorem s64 (w : Word) (full : Bool) : Denotes full .s64 w (.s64 w) := ⟨rfl, rfl, fun _ _ => rfl⟩

theorem u32 (w : Word) (full : Bool) : Denotes full .u32 w (.u32 (w.setWidth 32)) :=
  ⟨rfl, rfl, fun _ he => nomatch he⟩

/-- What is kept in a 64-bit temporary. -/
theorem keep (h : Denotes full ty w x) (hw : full = true → x.widen = w) :
    Denotes full .s64 w (.s64 x.widen) :=
  ⟨rfl, (setWidth_widen x).trans h.low, fun hf _ => hw hf⟩

end Denotes

/-! ### Operators -/

section

variable (x y : CVal)

theorem onAmp_ring (hop : op.ring = true) : op.onAmp x y =
    match usual x y with
    | .at32 true a b  => .int (op.compute true a b)
    | .at32 false a b => .u32 (op.compute false a b)
    | .at64 a b       => .s64 (op.compute true a b) := by
  cases op <;> first | (cases x <;> cases y <;> rfl) | cases hop

theorem onAmp_ty (hop : op.ring = true) : (op.onAmp x y).ty = x.ty.join y.ty := by
  rw [onAmp_ring x y hop]
  cases x <;> cases y <;> rfl

theorem onAmp_widen (hop : op.ring = true) (hty : x.ty.join y.ty = .s64) :
    (op.onAmp x y).widen = op.compute true x.widen y.widen := by
  rw [onAmp_ring x y hop]
  cases x <;> cases y <;> first | rfl | cases hty

theorem onAmp_narrow (hop : op.ring = true) :
    (op.onAmp x y).narrow = op.compute true x.narrow y.narrow := by
  by_cases hty : x.ty.join y.ty = .s64
  · rw [← setWidth_widen, onAmp_widen x y hop hty, setWidth_compute hop true true, setWidth_widen,
      setWidth_widen]
  · have hsign (a b : BitVec 32) : op.compute false a b = op.compute true a b := by
      cases op <;> first | rfl | cases hop
    rw [onAmp_ring x y hop]
    cases x <;> cases y <;> first | rfl | exact hsign _ _ | exact absurd rfl hty

theorem onAmp_comparison (hop : op.comparison = true) : (op.onAmp x y).isTrue =
    match usual x y with
    | .at32 signed a b => op.compare signed a b
    | .at64 a b        => op.compare true a b := by
  have hbool (b : Bool) : (CVal.ofBool b).isTrue = b := by cases b <;> rfl
  cases op <;> first | (cases x <;> cases y <;> exact hbool _) | cases hop

end

namespace Denotes

variable {full : Bool} {tl tr : CTy} {a b : Word} {x y : CVal}

/-- `+ - *` of values at their common type. -/
theorem ring (hop : op.ring = true) (hx : Denotes (full && tl.join tr == .s64) tl a x)
    (hy : Denotes (full && tl.join tr == .s64) tr b y)
    (hwide : (full && tl.join tr == .s64) = true → x.widen = a ∧ y.widen = b) :
    Denotes full (tl.join tr) (op.compute true a b) (op.onAmp x y) := by
  obtain ⟨rfl, hlx, _⟩ := hx
  obtain ⟨rfl, hly, _⟩ := hy
  refine ⟨onAmp_ty x y hop, ?_, fun hf hty => ?_⟩
  · rw [onAmp_narrow x y hop, hlx, hly, setWidth_compute hop true true]
  · obtain ⟨hwx, hwy⟩ := hwide (by simp [hf, hty])
    rw [onAmp_widen x y hop hty, hwx, hwy]

/-- A comparison at the common type. -/
theorem comparison (hop : op.comparison = true) (hx : Denotes (tl.join tr == .s64) tl a x)
    (hy : Denotes (tl.join tr == .s64) tr b y)
    (hwide : (tl.join tr == .s64) = true → x.widen = a ∧ y.widen = b) (ha : InRange a)
    (hb : InRange b) (hsign : tl.join tr = .u32 → op = .eq ∨ op = .ne ∨ (0 ≤ a.toInt ↔ 0 ≤ b.toInt)) :
    (op.onAmp x y).isTrue = op.compare true a b := by
  obtain ⟨rfl, hlx, _⟩ := hx
  obtain ⟨rfl, hly, _⟩ := hy
  rw [onAmp_comparison x y hop]
  cases hty : x.ty.join y.ty with
  | int =>
      have hsigned := (congrArg₂ (op.compare true) hlx hly).trans (compare_signed op ha hb)
      cases x <;> cases y <;> first | exact hsigned | cases hty
  | u32 =>
      have hunsigned := (congrArg₂ (op.compare false) hlx hly).trans
        (compare_unsigned ha hb (hsign hty))
      cases x <;> cases y <;> first | exact hunsigned | cases hty
  | s64 =>
      obtain ⟨hwx, hwy⟩ := hwide (by simp [hty])
      have hsigned := congrArg₂ (op.compare true) hwx hwy
      cases x <;> cases y <;> first | exact hsigned | cases hty

end Denotes

end SpinelEbpf.Codegen

import SpinelEbpf.Codegen.Fragment
import SpinelEbpf.Support.Twos

/-!
# Codegen — Where C reads the source as Ruby does

C takes 0 for false, makes a number of `&&`, rounds towards zero and masks shift counts, and the
text of a left operand is evaluated after the lines of the right one.  `ReadsAlike` says of a run of
the source that none of this shows in it:

* an operator has operands on which both languages compute the same (`BinOp.SameAt`);
* what is asked for its truth is true or false;
* what the text of a left operand reads is the same after the right operand (`Reads.Kept`);
* the right operand of `&&` or `||` has no effect if Ruby does not come to it.

It goes through the source along its evaluation, so it asks nothing of what is not evaluated.
-/

namespace SpinelEbpf.Codegen
open Outcome Twos

/-! ### Operators -/

/-- An operator that C computes as Ruby does on these operands.  Numbers: a quotient that is whole
or not negative, a shift by less than 64.  Booleans: an operator they have. -/
def BinOp.SameAt (op : BinOp) (a b : Value) : Prop :=
  (a.numeric = true ∧ b.numeric = true ∧
    match op with
    | .div | .mod => b.word ≠ 0#64 ∧ Rounds a.word.toInt b.word.toInt
    | .shl | .shr => b.word.toNat < 64
    | _ => True) ∨
  (a.numeric = false ∧ b.numeric = false ∧ op.logical = true)

variable {a b v : Value} {op : BinOp}

/-- Between numbers an operator is that of the integers. -/
theorem BinOp.ruby_numeric (op : BinOp) (ha : a.numeric = true) (hb : b.numeric = true) :
    op.ruby a b = op.rubyInt a.word b.word := by
  cases a with
  | bool _ => exact nomatch ha
  | int _ => cases b with
    | bool _ => exact nomatch hb
    | int _ => rfl
    | nil => rfl
  | nil => cases b with
    | bool _ => exact nomatch hb
    | int _ => rfl
    | nil => rfl

/-- The exact operators give the same on both sides, a boolean or a number. -/
theorem BinOp.ruby_exact (hop : op.exact = true) (ha : a.numeric = true) (hb : b.numeric = true) :
    ∃ v, op.ruby a b = some v ∧ v.word = op.c a.word b.word ∧ v.numeric = !op.comparison := by
  rw [op.ruby_numeric ha hb]
  cases op <;> first | exact ⟨_, rfl, rfl, rfl⟩ | cases hop

/-- A shift count in range is not negative. -/
theorem not_msb {w : Word} (hw : w.toNat < 64) : ¬ w.msb = true := by
  rw [BitVec.msb_eq_decide, decide_eq_true_eq]
  omega

/-- Only a boolean is no number. -/
theorem Value.exists_bool (hv : v.numeric = false) : ∃ b, v = .bool b := by
  cases v with
  | bool b => exact ⟨b, rfl⟩
  | int _ => exact nomatch hv
  | nil => exact nomatch hv

/-- **Operators.**  Where one is the same, it has a value and that is C's. -/
theorem BinOp.SameAt.ruby (hs : op.SameAt a b) :
    ∃ v, op.ruby a b = some v ∧ v.word = op.c a.word b.word := by
  rcases hs with ⟨ha, hb, hop⟩ | ⟨ha, hb, hop⟩
  · by_cases hex : op.exact = true
    · obtain ⟨v, hv, hw, _⟩ := ruby_exact hex ha hb
      exact ⟨v, hv, hw⟩
    rw [op.ruby_numeric ha hb]
    cases op with
    | div =>
        refine ⟨_, if_neg hop.1, BitVec.eq_of_toInt_eq ?_⟩
        have hne : b.word.toInt ≠ 0 := fun hz => hop.1 (BitVec.toInt_inj.mp hz)
        rw [Value.word, fdiv_eq hne, if_pos hop.2, sub_zero, BitVec.toInt_ofInt, BinOp.c,
          BitVec.toInt_sdiv]
    | mod =>
        refine ⟨_, if_neg hop.1, BitVec.eq_of_toInt_eq ?_⟩
        rw [Value.word, fmod_eq, if_pos hop.2, add_zero, BitVec.toInt_ofInt, BinOp.c,
          ← BitVec.toInt_srem]
        exact (bmod_eq_self_iff 63 _).mpr (toInt_inBits _)
    | shl =>
        refine ⟨_, rfl, ?_⟩
        rw [Value.word, if_neg (not_msb hop), BinOp.c, Nat.mod_eq_of_lt hop]
    | shr =>
        refine ⟨_, rfl, ?_⟩
        rw [Value.word, if_neg (not_msb hop), BinOp.c, Nat.mod_eq_of_lt hop]
    | _ => exact absurd rfl hex
  · -- the operators of `true` and `false` are those of 1 and 0
    obtain ⟨x, rfl⟩ := Value.exists_bool ha
    obtain ⟨y, rfl⟩ := Value.exists_bool hb
    cases op with
    | eq | ne | band | bor | bxor => exact ⟨_, rfl, by cases x <;> cases y <;> rfl⟩
    | _ => exact absurd hop Bool.false_ne_true

/-! ### Truth -/

/-- C's truth of a boolean. -/
theorem Value.word_eq_zero (hv : v.numeric = false) :
    v.word = 0#64 ↔ v.truthy = false := by
  obtain ⟨b, rfl⟩ := exists_bool hv
  cases b <;> decide

theorem Value.word_ne_zero (hv : v.numeric = false) (ht : v.truthy = true) :
    v.word ≠ 0#64 := fun hz => by
  rw [(word_eq_zero hv).mp hz] at ht
  exact absurd ht Bool.false_ne_true

/-- A boolean as the number that C makes of it. -/
theorem Value.word_bool (hv : v.numeric = false) :
    v.word = if v.word = 0#64 then 0#64 else 1#64 := by
  obtain ⟨b, rfl⟩ := exists_bool hv
  cases b <;> decide

/-! ### Texts -/

/-- The locals and instance variables that a text reads. -/
structure Reads where
  locals : List String
  ivars : List String

def Node.reads (n : Node) : Reads := ⟨mentions localRef n, mentions ivarRead n⟩

def readsLast (ns : List Node) : Reads := ⟨mentionsLast localRef ns, mentionsLast ivarRead ns⟩

/-- A text reads in the second state what it reads in the first.  An element that was looked up in a
hash map stays as it was found. -/
structure Reads.Kept (rd : Reads) (slot : Slot) (σ σ' : RState) : Prop where
  locals : ∀ x ∈ rd.locals, (σ'.locals x).word = (σ.locals x).word
  ivars : slot = .array → ∀ x ∈ rd.ivars, (σ'.ivars x).word = (σ.ivars x).word

theorem Reads.Kept.refl (rd : Reads) (slot : Slot) (σ : RState) : rd.Kept slot σ σ :=
  ⟨fun _ _ => rfl, fun _ _ _ => rfl⟩

theorem Reads.Kept.trans {rd : Reads} {slot : Slot} {σ₁ σ₂ σ₃ : RState} (h₁ : rd.Kept slot σ₁ σ₂)
    (h₂ : rd.Kept slot σ₂ σ₃) : rd.Kept slot σ₁ σ₃ :=
  ⟨fun x hx => (h₂.locals x hx).trans (h₁.locals x hx),
    fun hs x hx => (h₂.ivars hs x hx).trans (h₁.ivars hs x hx)⟩

/-! ### Runs -/

section

variable (h : Host) (slot : Slot)

mutual

/-- C reads the node as Ruby does in the run from a state. -/
def ReadsAlike : Node → RState → Prop
  | .int _, _ | .lvar _, _ | .ivar _, _ => True
  | .binop op l r, σ => ReadsAlike l σ ∧ ∀ a σ₁, eval h l σ = (.ok a, σ₁) →
      ReadsAlike r σ₁ ∧ ∀ b σ₂, eval h r σ₁ = (.ok b, σ₂) →
        op.SameAt a b ∧ l.reads.Kept slot σ₁ σ₂
  -- the lines of `r` run whether or not Ruby comes to it
  | .and l r, σ => ReadsAlike l σ ∧ ∀ a σ₁, eval h l σ = (.ok a, σ₁) → a.numeric = false ∧
      (a.truthy = false → quiet r = true) ∧
      (a.truthy = true → ReadsAlike r σ₁ ∧ ∀ b σ₂, eval h r σ₁ = (.ok b, σ₂) →
        b.numeric = false ∧ l.reads.Kept slot σ₁ σ₂)
  | .or l r, σ => ReadsAlike l σ ∧ ∀ a σ₁, eval h l σ = (.ok a, σ₁) → a.numeric = false ∧
      (a.truthy = true → quiet r = true) ∧
      (a.truthy = false → ReadsAlike r σ₁ ∧ ∀ b σ₂, eval h r σ₁ = (.ok b, σ₂) →
        b.numeric = false ∧ l.reads.Kept slot σ₁ σ₂)
  | .paren body, σ => ReadsAlikeAll body σ
  | .lwrite _ v, σ | .iwrite _ v, σ | .emit v, σ => ReadsAlike v σ
  -- the variable is read after the lines of `v`
  | .iopwrite x op v, σ => ReadsAlike v σ ∧ ∀ b σ₁, eval h v σ = (.ok b, σ₁) →
      op.SameAt (σ.ivars x) b ∧ (σ₁.ivars x).word = (σ.ivars x).word
  | .ret args, σ => ReadsAlikeAll args σ
  | .ifNode p t e, σ => ReadsAlike p σ ∧ ∀ a σ₁, eval h p σ = (.ok a, σ₁) → a.numeric = false ∧
      (a.truthy = true → ReadsAlikeAll t σ₁) ∧ (a.truthy = false → ReadsAlikeAll e σ₁)
  -- a callee is given instance variables that hold numbers
  | .call _ _ args, σ => ReadsAlikeAll args σ ∧ ∀ x, (σ.ivars x).numeric = true
  | .times r param own body, σ => ReadsAlike r σ ∧ ∀ n σ₁, eval h r σ = (.ok n, σ₁) →
      n.numeric = true ∧
      Throughout (fun i σ => ReadsAlikeAll body (σ.enterBlock param i own))
        (runBlock (evalAll h body) param own) (h.rounds n.word) 0 (σ₁.log (.loop n.word))

/-- The same of nodes one after another. -/
def ReadsAlikeAll : List Node → RState → Prop
  | [], _      => True
  | n :: ns, σ => ReadsAlike n σ ∧ ∀ a σ₁, eval h n σ = (.ok a, σ₁) → ReadsAlikeAll ns σ₁

end

end

/-- Operands without effect: what matters is the operator. -/
theorem ReadsAlike.binop {h : Host} {slot : Slot} {l r : Node} {σ : RState}
    (hl : eval h l σ = (.ok a, σ)) (hr : eval h r σ = (.ok b, σ)) (hop : op.SameAt a b)
    (hal : ReadsAlike h slot l σ) (har : ReadsAlike h slot r σ) :
    ReadsAlike h slot (.binop op l r) σ := by
  refine ⟨hal, fun a' σ₁ ha' => ?_⟩
  obtain ⟨⟨rfl⟩, rfl⟩ := Prod.mk.inj (ha'.symm.trans hl)
  refine ⟨har, fun b' σ₂ hb' => ?_⟩
  obtain ⟨⟨rfl⟩, rfl⟩ := Prod.mk.inj (hb'.symm.trans hr)
  exact ⟨hop, .refl _ _ _⟩

end SpinelEbpf.Codegen

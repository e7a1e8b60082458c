import SpinelEbpf.Codegen.AmpValues
import SpinelEbpf.Codegen.Core

/-!
# Codegen — What an AMP handler computes

Handlers of assignments, `op=`, `if` on a comparison and `spnl_emit`, over `+ - *`
(`ampFragment`).  `watch` follows a run of the source and notes its values, the conversions to 64
bits and the comparisons that C makes of them, the branches taken and what is emitted.  A note is
`Fine` if its values fit into 32 bits and no negative `__u32` is widened, or ordered against a value
that is not negative.

Lowering also moves the lines of an operand in front of the texts to its left; `reordered` are the
variables that are then read too late.
-/

namespace SpinelEbpf.Codegen
open Outcome

/-! ### Variables -/

/-- A variable of a handler. -/
inductive Var where
  | loc (name : String)
  | ivar (name : String)
  deriving DecidableEq, Repr

/-- The variable a node assigns. -/
def varWrite : Node → List Var
  | .lwrite x _ => [.loc x]
  | .iwrite x _ | .iopwrite x _ _ => [.ivar x]
  | _ => []

/-- The variable a node reads or assigns. -/
def varRef : Node → List Var
  | .lvar x | .lwrite x _ => [.loc x]
  | .ivar x | .iwrite x _ | .iopwrite x _ _ => [.ivar x]
  | _ => []

mutual

/-- The variables that the text of a node reads. -/
def textReads : Node → List Var
  | .lvar x | .lwrite x _ => [.loc x]
  | .ivar x | .iwrite x _ | .iopwrite x _ _ => [.ivar x]
  | .binop _ l r => textReads l ++ textReads r
  | .paren body => textReadsLast body
  | _ => []

def textReadsLast : List Node → List Var
  | []      => []
  | n :: ns =>
      match ns with
      | [] => textReads n
      | _  => textReadsLast ns

end

/-- The variables that a node reads in Ruby before, and in C after, a part of it assigns them. -/
def reordered : Node → List Var
  | .binop _ l r => (textReads l).filter (· ∈ collect varWrite r)
  | .iopwrite x _ v => [Var.ivar x].filter (· ∈ collect varWrite v)
  | _ => []

/-! ### The fragment -/

mutual

/-- A node whose value is a number. -/
def ampFragment : Node → Bool
  | .int _ | .lvar _ | .ivar _ => true
  | .binop op l r => op.ring && ampFragment l && ampFragment r
  | .paren body => ampFragmentAll body
  | .lwrite _ v | .iwrite _ v | .emit v => ampFragment v
  | .iopwrite _ op v => op.ring && ampFragment v
  | .ifNode p t e => ampPredicate p && ampFragmentAll t && ampFragmentAll e
  | _ => false

/-- The comparison of an `if`. -/
def ampPredicate : Node → Bool
  | .binop op l r => op.comparison && ampFragment l && ampFragment r
  | .paren [p] => ampPredicate p
  | _ => false

def ampFragmentAll : List Node → Bool
  | []      => true
  | n :: ns => ampFragment n && ampFragmentAll ns

end

/-! ### What a run computes -/

/-- What is noted of a run. -/
inductive Seen where
  /-- A value. -/
  | value (w : Word)
  /-- A value of C type `ty` that is wanted as a 64-bit integer. -/
  | widen (ty : CTy) (w : Word)
  /-- A comparison at C type `ty`. -/
  | compare (op : BinOp) (ty : CTy) (a b : Word)
  | branch (taken : Bool)
  | emit (w : Word)
  deriving DecidableEq, Repr

/-- The integers of a note. -/
def Seen.words : Seen → List Word
  | .value w | .widen _ w | .emit w => [w]
  | .compare _ _ a b => [a, b]
  | .branch _ => []

/-- What the outside sees. -/
def Seen.shown : Seen → Option AmpEvent
  | .branch taken => some (.branch taken)
  | .emit w => some (.emit w)
  | _ => none

/-- The unsigned type does no harm. -/
def Seen.Kept : Seen → Prop
  | .widen ty w => ty = .u32 → 0 ≤ w.toInt
  | .compare op ty a b => ty = .u32 → op = .eq ∨ op = .ne ∨ (0 ≤ a.toInt ↔ 0 ≤ b.toInt)
  | _ => True

instance : (s : Seen) → Decidable s.Kept
  | .widen .. => inferInstanceAs (Decidable (_ → _))
  | .compare .. => inferInstanceAs (Decidable (_ → _))
  | .value _ | .branch _ | .emit _ => inferInstanceAs (Decidable True)

/-- What is noted after a run that came to a value. -/
def noteThen (r : Outcome RExit Value × RState) (k : Value → RState → List Seen) : List Seen :=
  match r with
  | (.ok v, σ)  => k v σ
  | (.exit _, _) => []

@[simp] theorem noteThen_ok (v : Value) (σ : RState) (k : Value → RState → List Seen) :
    noteThen (.ok v, σ) k = k v σ := rfl

/-- The conversion of a value to 64 bits, if it is made. -/
def noteWiden (made : Bool) (ty : CTy) (v : Value) : List Seen :=
  if made then [.widen ty v.word] else []

mutual

/-- The notes of a node's run, when all 64 bits of its value are wanted (`full`) or the lower 32. -/
@[simp] def watch (h : Host) (full : Bool) : Node → RState → List Seen
  | .int v, _  => [.value (.ofInt 64 v)]
  | .lvar x, σ => [.value (σ.locals x).word]
  | .ivar x, σ => [.value (σ.ivars x).word]
  | .binop op l r, σ =>
      let ty := (ampTy l).join (ampTy r)
      let wide := full && ty == .s64
      watch h wide l σ ++ noteThen (eval h l σ) fun a σ =>
      watch h wide r σ ++ noteThen (eval h r σ) fun b _ =>
        noteWiden wide (ampTy l) a ++ noteWiden wide (ampTy r) b ++
        [if op.comparison then .compare op ty a.word b.word
         else .value (op.compute true a.word b.word)]
  | .paren body, σ => watchAll h full body σ
  | .lwrite _ v, σ => watch h true v σ ++ noteThen (eval h v σ) fun a _ => noteWiden true (ampTy v) a
  | .iwrite _ v, σ => watch h false v σ
  | .iopwrite x op v, σ =>
      watch h false v σ ++ noteThen (eval h v σ) fun b _ =>
        [.value (op.compute true (σ.ivars x).word b.word)]
  | .ifNode p t e, σ =>
      watch h true p σ ++ noteThen (eval h p σ) fun a σ =>
      .branch a.truthy ::
        if a.truthy then
          watchAll h full t σ ++ noteThen (evalAll h t σ) fun v _ => noteWiden full (ampTyLast t) v
        else
          watchAll h full e σ ++ noteThen (evalAll h e σ) fun v _ => noteWiden full (ampTyLast e) v
  | .emit v, σ =>
      watch h true v σ ++ noteThen (eval h v σ) fun a _ =>
        noteWiden true (ampTy v) a ++ [.emit a.word]
  | _, _ => []

/-- The notes of statements; only the value of the last is wanted. -/
@[simp] def watchAll (h : Host) (full : Bool) : List Node → RState → List Seen
  | [], _ => []
  | n :: ns, σ =>
      match ns with
      | [] => watch h full n σ
      | _  => watch h false n σ ++ noteThen (eval h n σ) fun _ σ => watchAll h full ns σ

end

/-! ### The conditions, taken apart -/

/-- A note of 32-bit values to which the unsigned type does no harm. -/
def Seen.Fine (s : Seen) : Prop := (∀ w ∈ s.words, InRange w) ∧ s.Kept

/-- A node of the fragment over the variables of `scope` that lowering does not reorder. -/
def Fits (scope : List Var) (n : Node) : Prop :=
  ampFragment n = true ∧ (∀ y ∈ collect varRef n, y ∈ scope) ∧ collect reordered n = []

/-- The same, of the predicate of an `if`. -/
def FitsPredicate (scope : List Var) (n : Node) : Prop :=
  ampPredicate n = true ∧ (∀ y ∈ collect varRef n, y ∈ scope) ∧ collect reordered n = []

/-- The same, of statements. -/
def FitsAll (scope : List Var) (ns : List Node) : Prop :=
  ampFragmentAll ns = true ∧ (∀ y ∈ collectAll varRef ns, y ∈ scope) ∧ collectAll reordered ns = []

section

variable {scope : List Var} {op : BinOp} {l r v p n : Node} {t e ns : List Node} {x : String}

theorem fits_lvar (h : Fits scope (.lvar x)) : .loc x ∈ scope :=
  h.2.1 _ (by simp [collect, varRef])

theorem fits_ivar (h : Fits scope (.ivar x)) : .ivar x ∈ scope :=
  h.2.1 _ (by simp [collect, varRef])

/-- The operands of an operator fit, and their order is no matter. -/
theorem operands_fit (hl : ampFragment l = true) (hr : ampFragment r = true)
    (hscope : ∀ y ∈ collect varRef (.binop op l r), y ∈ scope)
    (horder : collect reordered (.binop op l r) = []) :
    Fits scope l ∧ Fits scope r ∧ ∀ y ∈ textReads l, y ∉ collect varWrite r := by
  simp only [collect, reordered, List.append_eq_nil_iff, List.filter_eq_nil_iff,
    decide_eq_true_eq] at horder
  exact ⟨⟨hl, fun y hy => hscope y (by simp [collect, hy]), horder.1.2⟩,
    ⟨hr, fun y hy => hscope y (by simp [collect, hy]), horder.2⟩, horder.1.1⟩

/-- The operands of an arithmetic operator are of the fragment, and it is a ring operation. -/
theorem fits_binop (h : Fits scope (.binop op l r)) :
    op.ring = true ∧ Fits scope l ∧ Fits scope r ∧ ∀ y ∈ textReads l, y ∉ collect varWrite r := by
  obtain ⟨hfrag, hscope, horder⟩ := h
  simp only [ampFragment, Bool.and_eq_true] at hfrag
  exact ⟨hfrag.1.1, operands_fit hfrag.1.2 hfrag.2 hscope horder⟩

/-- A predicate compares two nodes of the fragment. -/
theorem fitsPredicate_binop (h : FitsPredicate scope (.binop op l r)) :
    op.comparison = true ∧ Fits scope l ∧ Fits scope r ∧
      ∀ y ∈ textReads l, y ∉ collect varWrite r := by
  obtain ⟨hfrag, hscope, horder⟩ := h
  simp only [ampPredicate, Bool.and_eq_true] at hfrag
  exact ⟨hfrag.1.1, operands_fit hfrag.1.2 hfrag.2 hscope horder⟩

/-- Parentheses around a predicate are transparent. -/
theorem fitsPredicate_paren (h : FitsPredicate scope (.paren [p])) : FitsPredicate scope p := by
  simpa [FitsPredicate, ampPredicate, collect, collectAll, varRef, reordered] using h

theorem fits_paren (h : Fits scope (.paren ns)) : FitsAll scope ns := by
  simpa [Fits, FitsAll, ampFragment, collect, varRef, reordered] using h

/-- An assignment writes a variable in scope. -/
theorem fits_lwrite (h : Fits scope (.lwrite x v)) : .loc x ∈ scope ∧ Fits scope v := by
  simp only [Fits, ampFragment, collect, varRef, reordered, List.cons_append, List.nil_append,
    List.mem_cons, forall_eq_or_imp] at h
  exact ⟨h.2.1.1, h.1, h.2.1.2, h.2.2⟩

theorem fits_iwrite (h : Fits scope (.iwrite x v)) : .ivar x ∈ scope ∧ Fits scope v := by
  simp only [Fits, ampFragment, collect, varRef, reordered, List.cons_append, List.nil_append,
    List.mem_cons, forall_eq_or_imp] at h
  exact ⟨h.2.1.1, h.1, h.2.1.2, h.2.2⟩

/-- The operand of `op=` does not write the variable it is added to. -/
theorem fits_iopwrite (h : Fits scope (.iopwrite x op v)) :
    op.ring = true ∧ .ivar x ∈ scope ∧ Fits scope v ∧ .ivar x ∉ collect varWrite v := by
  obtain ⟨hfrag, hscope, horder⟩ := h
  simp only [ampFragment, Bool.and_eq_true] at hfrag
  simp only [collect, reordered, List.append_eq_nil_iff, List.filter_eq_nil_iff, List.mem_singleton,
    forall_eq, decide_eq_true_eq] at horder
  exact ⟨hfrag.1, hscope _ (by simp [collect, varRef]),
    ⟨hfrag.2, fun y hy => hscope y (by simp [collect, hy]), horder.2⟩, horder.1⟩

theorem fits_emit (h : Fits scope (.emit v)) : Fits scope v := by
  simpa [Fits, ampFragment, collect, varRef, reordered] using h

/-- An `if` has a comparison for its predicate and branches of the fragment. -/
theorem fits_if (h : Fits scope (.ifNode p t e)) :
    FitsPredicate scope p ∧ FitsAll scope t ∧ FitsAll scope e := by
  obtain ⟨hfrag, hscope, horder⟩ := h
  simp only [ampFragment, Bool.and_eq_true] at hfrag
  simp only [collect, reordered, List.append_eq_nil_iff] at horder
  exact ⟨⟨hfrag.1.1, fun y hy => hscope y (by simp [collect, hy]), horder.1.1.2⟩,
    ⟨hfrag.1.2, fun y hy => hscope y (by simp [collect, hy]), horder.1.2⟩,
    ⟨hfrag.2, fun y hy => hscope y (by simp [collect, hy]), horder.2⟩⟩

/-- A list of statements fits when each statement does. -/
theorem fitsAll_cons (h : FitsAll scope (n :: ns)) : Fits scope n ∧ FitsAll scope ns := by
  obtain ⟨hfrag, hscope, horder⟩ := h
  simp only [ampFragmentAll, Bool.and_eq_true] at hfrag
  simp only [collectAll, List.append_eq_nil_iff] at horder
  exact ⟨⟨hfrag.1, fun y hy => hscope y (by simp [collectAll, hy]), horder.1⟩,
    ⟨hfrag.2, fun y hy => hscope y (by simp [collectAll, hy]), horder.2⟩⟩

end

mutual

/-- The text of a node reads only variables the node mentions. -/
theorem textReads_subset : ∀ (n : Node), textReads n ⊆ collect varRef n
  | .int _ | .and .. | .or .. | .ret _ | .ifNode .. | .emit _ | .call .. | .times .. => by
      simp [textReads]
  | .lvar _ | .ivar _ | .lwrite .. | .iwrite .. | .iopwrite .. => by
      simp [textReads, collect, varRef]
  | .binop _ l r => by
      have hl := textReads_subset l
      have hr := textReads_subset r
      simp only [textReads, collect, varRef, List.nil_append]
      exact List.append_subset.mpr ⟨List.subset_append_of_subset_left _ hl,
        List.subset_append_of_subset_right _ hr⟩
  | .paren body => by
      simpa [textReads, collect, varRef] using textReadsLast_subset body

theorem textReadsLast_subset : ∀ (ns : List Node), textReadsLast ns ⊆ collectAll varRef ns
  | [] => by simp [textReadsLast]
  | [n] => by simpa [textReadsLast, collectAll] using textReads_subset n
  | n :: m :: ns => by
      have h := textReadsLast_subset (m :: ns)
      simp only [textReadsLast]
      rw [collectAll]
      exact List.subset_append_of_subset_right _ h

end

end SpinelEbpf.Codegen

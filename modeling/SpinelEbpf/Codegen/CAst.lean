import SpinelEbpf.Support.CSyntax

/-!
# Codegen — printing C expressions

The precedence-driven printer of the code generator (`cePrint`) and its Ruby counterpart
(`CPrinter.expr`), over the trees of `CSyntax`. Either puts a child in parentheses when its
precedence is too low: strictly lower on the left of a binary operator, lower or equal on the right.

* `shown`: the tree with a parenthesis node for every pair the printer adds; its plain text is what
  the printer prints (`cePrint_eq_flat`), and every operand of it stands where its level allows
  (`explicit_shown`).
* `print_roundtrip`: what is printed parses to the tree, up to parentheses, and the Ruby printer
  prints the same.

No builder makes a unary node, so the trees have none.
-/

namespace SpinelEbpf.CAst
open CSyntax

/-! ### The printer of the generator -/

def precCast : Nat := 80
def precPostfix : Nat := 90
def precPrimary : Nat := 100

def ceBinopPrec : BinOp → Nat
  | .lor => 20
  | .land => 25
  | .bor => 30
  | .bxor => 35
  | .band => 40
  | .eq | .ne => 45
  | .lt | .le | .gt | .ge => 50
  | .shl | .shr => 55
  | .add | .sub => 60
  | .mul | .div | .mod => 70

def cePrec : Expr → Nat
  | .binop op _ _ => ceBinopPrec op
  | .cast _ _ => precCast
  | .call _ _ | .subscript _ _ => precPostfix
  | .raw _ | .paren _ => precPrimary

/-- A child that has been printed. -/
def ceChild (needsParen : Bool) (printed : Text) : Text :=
  if needsParen then '(' :: printed ++ [')'] else printed

mutual

def cePrint : Expr → Text
  | .raw t => t
  | .paren a => '(' :: cePrint a ++ [')']
  | .cast ty a => '(' :: ty.text ++ ')' :: ceChild (cePrec a < precCast) (cePrint a)
  | .binop op a b =>
      ceChild (cePrec a < ceBinopPrec op) (cePrint a) ++ ' ' :: op.text ++
        ' ' :: ceChild (cePrec b ≤ ceBinopPrec op) (cePrint b)
  | .call f args => f ++ '(' :: cePrintArgs 0 args ++ [')']
  | .subscript a b =>
      ceChild (cePrec a < precPostfix) (cePrint a) ++ '[' :: cePrint b ++ [']']

/-- The arguments from the `i`-th on. -/
def cePrintArgs (i : Nat) : List Expr → Text
  | [] => []
  | a :: args => (if i = 0 then [] else [',', ' ']) ++ cePrint a ++ cePrintArgs (i + 1) args

end

/-! ### The Ruby printer -/

/-- The nodes of the Ruby tree. -/
inductive RExpr
  | lit (text : Text)
  | id (name : Text)
  | raw (text : Text)
  | paren (inner : RExpr)
  | call (callee : Text) (args : List RExpr)
  | field (recv : RExpr) (field : Text) (arrow : Bool)
  | cast (type : Text) (operand : RExpr)
  | unary (op : Text) (operand : RExpr)
  | binop (op : BinOp) (lhs rhs : RExpr)
  deriving Repr

/-- `BINOP_PREC`. -/
def rubyBinopPrec : BinOp → Nat
  | .lor => 20
  | .land => 25
  | .bor => 30
  | .bxor => 35
  | .band => 40
  | .eq | .ne => 45
  | .lt | .le | .gt | .ge => 50
  | .shl | .shr => 55
  | .add | .sub => 60
  | .mul | .div | .mod => 70

def RExpr.prec : RExpr → Nat
  | .binop op _ _ => rubyBinopPrec op
  | .cast _ _ | .unary _ _ => 80
  | .call _ _ | .field _ _ _ => 90
  | .lit _ | .id _ | .raw _ | .paren _ => 100

def parenIf (printed : Text) (cond : Bool) : Text :=
  if cond then '(' :: printed ++ [')'] else printed

mutual

/-- `CPrinter#expr`. -/
def rubyExpr : RExpr → Text
  | .lit t => t
  | .id n => n
  | .raw t => t
  | .paren a => '(' :: rubyExpr a ++ [')']
  | .call f args => f ++ '(' :: [',', ' '].intercalate (rubyExprs args) ++ [')']
  | .field r f arrow =>
      parenIf (rubyExpr r) (r.prec < 90) ++ (if arrow then ['-', '>'] else ['.']) ++ f
  | .cast ty a => '(' :: ty ++ ')' :: parenIf (rubyExpr a) (a.prec < 80)
  | .unary op a => op ++ parenIf (rubyExpr a) (a.prec < 80)
  | .binop op l r =>
      parenIf (rubyExpr l) (l.prec < rubyBinopPrec op) ++ ' ' :: op.text ++
        ' ' :: parenIf (rubyExpr r) (r.prec ≤ rubyBinopPrec op)

def rubyExprs : List RExpr → List Text
  | [] => []
  | a :: args => rubyExpr a :: rubyExprs args

end

mutual

/-- The Ruby tree of the same nodes; Ruby has none for a subscript. -/
def toRuby : Expr → Option RExpr
  | .raw t => some (.raw t)
  | .paren a => (toRuby a).map .paren
  | .cast ty a => (toRuby a).map (.cast ty.text)
  | .binop op a b => (toRuby a).bind fun l => (toRuby b).map (.binop op l)
  | .call f args => (toRubyAll args).map (.call f)
  | .subscript _ _ => none

def toRubyAll : List Expr → Option (List RExpr)
  | [] => some []
  | a :: args => (toRuby a).bind fun r => (toRubyAll args).map (r :: ·)

end

mutual

/-- There is a subscript in the tree. -/
def hasSubscript : Expr → Bool
  | .raw _ => false
  | .paren a => hasSubscript a
  | .cast _ a => hasSubscript a
  | .binop _ a b => hasSubscript a || hasSubscript b
  | .call _ args => anySubscript args
  | .subscript _ _ => true

def anySubscript : List Expr → Bool
  | [] => false
  | a :: args => hasSubscript a || anySubscript args

end

/-! ### The tree as printed -/

/-- A parenthesis node, where one is needed. -/
def wrap (needsParen : Bool) (e : Expr) : Expr := if needsParen then .paren e else e

mutual

/-- The tree with a node for every pair of parentheses the printer adds. -/
def shown : Expr → Expr
  | .raw t => .raw t
  | .paren a => .paren (shown a)
  | .cast ty a => .cast ty (wrap (cePrec a < precCast) (shown a))
  | .binop op a b =>
      .binop op (wrap (cePrec a < ceBinopPrec op) (shown a))
        (wrap (cePrec b ≤ ceBinopPrec op) (shown b))
  | .call f args => .call f (shownAll args)
  | .subscript a b => .subscript (wrap (cePrec a < precPostfix) (shown a)) (shown b)

def shownAll : List Expr → List Expr
  | [] => []
  | a :: args => shown a :: shownAll args

end

mutual

/-- The tree without its parenthesis nodes. -/
def strip : Expr → Expr
  | .raw t => .raw t
  | .paren a => strip a
  | .cast ty a => .cast ty (strip a)
  | .binop op a b => .binop op (strip a) (strip b)
  | .call f args => .call f (stripAll args)
  | .subscript a b => .subscript (strip a) (strip b)

def stripAll : List Expr → List Expr
  | [] => []
  | a :: args => strip a :: stripAll args

end

/-! ### The precedences are the levels of the grammar -/

/-- The printer's table orders the operators as the grammar does. -/
theorem binopPrec_lt_iff (a b : BinOp) : ceBinopPrec a < ceBinopPrec b ↔ a.level < b.level := by
  cases a <;> cases b <;> decide

/-- Every operator binds less tightly than a cast, in the table and in the grammar. -/
theorem binopPrec_lt (op : BinOp) : ceBinopPrec op < precCast ∧ op.level < 11 := by
  cases op <;> decide

/-- The test on a left operand. -/
theorem prec_lt_binop_iff (a : Expr) (op : BinOp) :
    cePrec a < ceBinopPrec op ↔ a.level < op.level := by
  have hop := binopPrec_lt op
  unfold precCast at hop
  cases a with
  | binop op' l r => exact binopPrec_lt_iff op' op
  | _ => simp only [cePrec, Expr.level, precCast, precPostfix, precPrimary]; omega

/-- The test on a right operand, which also holds at equal precedence. -/
theorem prec_le_binop_iff (a : Expr) (op : BinOp) :
    cePrec a ≤ ceBinopPrec op ↔ a.level ≤ op.level := by
  have hop := binopPrec_lt op
  unfold precCast at hop
  cases a with
  | binop op' l r =>
      rw [← Nat.not_lt, ← Nat.not_lt]
      exact not_congr (binopPrec_lt_iff op op')
  | _ => simp only [cePrec, Expr.level, precCast, precPostfix, precPrimary]; omega

/-- The test on the operand of a cast. -/
theorem prec_lt_cast_iff (a : Expr) : cePrec a < precCast ↔ a.level < 11 := by
  cases a with
  | binop op l r => exact iff_of_true (binopPrec_lt op).1 (binopPrec_lt op).2
  | _ => simp [cePrec, Expr.level, precCast, precPostfix, precPrimary]

/-- The test on the base of a subscript. -/
theorem prec_lt_postfix_iff (a : Expr) : cePrec a < precPostfix ↔ a.level < 12 := by
  cases a with
  | binop op l r =>
      have hop := binopPrec_lt op
      unfold precCast at hop
      simp only [cePrec, Expr.level, precPostfix]
      omega
  | _ => simp [cePrec, Expr.level, precCast, precPostfix, precPrimary]

/-! ### What is printed is the plain text of the tree as shown -/

theorem flat_wrap (needsParen : Bool) (e : Expr) :
    flat (wrap needsParen e) = ceChild needsParen (flat e) := by
  cases needsParen <;> rfl

/-- Every argument after the first is printed behind a comma. -/
theorem cePrintArgs_succ (i : Nat) (args : List Expr) :
    cePrintArgs (i + 1) args = args.flatMap fun a => ',' :: ' ' :: cePrint a := by
  induction args generalizing i with
  | nil => rfl
  | cons a args ih =>
      rw [cePrintArgs, ih, List.flatMap_cons, if_neg (Nat.succ_ne_zero i)]
      rfl

theorem flatArgs_cons (a : Expr) (args : List Expr) :
    flatArgs (a :: args) = flat a ++ args.flatMap fun b => ',' :: ' ' :: flat b := by
  induction args generalizing a with
  | nil => simp [flatArgs]
  | cons b args ih => rw [flatArgs, ih, List.flatMap_cons]; rfl

theorem shownAll_eq (args : List Expr) : shownAll args = args.map shown := by
  induction args with
  | nil => rfl
  | cons a args ih => rw [shownAll, ih, List.map_cons]

/-- The argument list, when each argument is printed as shown. -/
theorem cePrintArgs_eq_flatArgs {args : List Expr} (h : ∀ a ∈ args, cePrint a = flat (shown a)) :
    cePrintArgs 0 args = flatArgs (shownAll args) := by
  cases args with
  | nil => rfl
  | cons a args =>
      have hrest : (args.flatMap fun b => ',' :: ' ' :: cePrint b) =
          (args.map shown).flatMap fun b => ',' :: ' ' :: flat b := by
        rw [List.flatMap_map]
        exact List.flatMap_congr fun b hb => by rw [h b (List.mem_cons_of_mem _ hb)]
      rw [cePrintArgs, cePrintArgs_succ, shownAll, flatArgs_cons, shownAll_eq, hrest,
        h a List.mem_cons_self]
      rfl

/-- **The printer writes the plain text of the tree as shown.** -/
theorem cePrint_eq_flat (e : Expr) : cePrint e = flat (shown e) := by
  induction e using Expr.induct with
  | raw t => rfl
  | paren a ih => rw [cePrint, shown, flat, ih]
  | cast ty a ih => rw [cePrint, shown, flat, flat_wrap, ih]
  | binop op a b iha ihb => rw [cePrint, shown, flat, flat_wrap, flat_wrap, iha, ihb]
  | call f args ih => rw [cePrint, shown, flat, cePrintArgs_eq_flatArgs ih]
  | subscript a b iha ihb => rw [cePrint, shown, flat, flat_wrap, iha, ihb]

/-! ### Every operand stands where its level allows -/

/-- Parentheses inside a node do not change how it binds. -/
theorem level_shown (e : Expr) : (shown e).level = e.level := by
  cases e <;> rfl

variable {needsParen : Bool} {e : Expr}

/-- A child in parentheses stands anywhere, and any other where its own level allows. -/
theorem le_level_wrap {k : Nat} (hk : k ≤ 12) (h : needsParen = false → k ≤ e.level) :
    k ≤ (wrap needsParen (shown e)).level := by
  cases needsParen with
  | true => exact hk
  | false =>
      show k ≤ (shown e).level
      rw [level_shown]
      exact h rfl

theorem explicit_wrap (h : (shown e).Explicit) :
    (wrap needsParen (shown e)).Explicit := by
  cases needsParen <;> exact h

/-- **No operand of the tree as shown binds too loosely for its place.** -/
theorem explicit_shown (e : Expr) : (shown e).Explicit := by
  induction e using Expr.induct with
  | raw t => trivial
  | paren a ih => exact ih
  | cast ty a ih =>
      refine ⟨le_level_wrap (by decide) fun hparen => ?_, explicit_wrap ih⟩
      rw [decide_eq_false_iff_not, prec_lt_cast_iff] at hparen
      exact Nat.le_of_not_lt hparen
  | binop op a b iha ihb =>
      have hop := (binopPrec_lt op).2
      refine ⟨le_level_wrap (by omega) fun hparen => ?_,
        le_level_wrap (by omega) fun hparen => ?_, explicit_wrap iha, explicit_wrap ihb⟩
      · rw [decide_eq_false_iff_not, prec_lt_binop_iff] at hparen
        exact Nat.le_of_not_lt hparen
      · rw [decide_eq_false_iff_not, prec_le_binop_iff] at hparen
        exact Nat.lt_of_not_le hparen
  | call f args ih =>
      refine explicitArgs_iff.mpr fun x hx => ?_
      rw [shownAll_eq] at hx
      obtain ⟨a, ha, rfl⟩ := List.mem_map.mp hx
      exact ih a ha
  | subscript a b iha ihb =>
      refine ⟨le_level_wrap (Nat.le_refl _) fun hparen => ?_, explicit_wrap iha, ihb⟩
      rw [decide_eq_false_iff_not, prec_lt_postfix_iff] at hparen
      exact Nat.le_of_not_lt hparen

/-! ### Only parentheses are added -/

theorem wellFormed_wrap {isType : Text → Bool} (h : (shown e).WellFormed isType) :
    (wrap needsParen (shown e)).WellFormed isType := by
  cases needsParen <;> exact h

/-- The added parentheses keep a tree well formed. -/
theorem wellFormed_shown {isType : Text → Bool} (he : e.WellFormed isType) :
    (shown e).WellFormed isType := by
  induction e using Expr.induct with
  | raw t => exact he
  | paren a ih => exact ih he
  | cast ty a ih => exact ⟨he.1, wellFormed_wrap (ih he.2)⟩
  | binop op a b iha ihb => exact ⟨wellFormed_wrap (iha he.1), wellFormed_wrap (ihb he.2)⟩
  | call f args ih =>
      refine ⟨he.1, he.2.1, wellFormedArgs_iff.mpr fun x hx => ?_⟩
      rw [shownAll_eq] at hx
      obtain ⟨a, ha, rfl⟩ := List.mem_map.mp hx
      exact ih a ha (wellFormedArgs_iff.mp he.2.2 a ha)
  | subscript a b iha ihb => exact ⟨wellFormed_wrap (iha he.1), ihb he.2⟩

theorem strip_wrap (needsParen : Bool) (e : Expr) : strip (wrap needsParen e) = strip e := by
  cases needsParen <;> rfl

theorem stripAll_eq (args : List Expr) : stripAll args = args.map strip := by
  induction args with
  | nil => rfl
  | cons a args ih => rw [stripAll, ih, List.map_cons]

/-- **The tree as shown is the tree, but for parentheses.** -/
theorem strip_shown (e : Expr) : strip (shown e) = strip e := by
  induction e using Expr.induct with
  | raw t => rfl
  | paren a ih => exact ih
  | cast ty a ih => rw [shown, strip, strip_wrap, ih, strip]
  | binop op a b iha ihb => rw [shown, strip, strip_wrap, strip_wrap, iha, ihb, strip]
  | call f args ih =>
      rw [shown, strip, strip, stripAll_eq, stripAll_eq, shownAll_eq, List.map_map]
      exact congrArg (Expr.call f) (List.map_congr_left ih)
  | subscript a b iha ihb => rw [shown, strip, strip_wrap, iha, ihb, strip]

/-! ### The Ruby printer prints the same -/

/-- What the Ruby tree of a tree prints, and how it binds. -/
def Mirrors (e : Expr) : Prop :=
  hasSubscript e = false → ∃ r, toRuby e = some r ∧ rubyExpr r = cePrint e ∧ r.prec = cePrec e

/-- `paren_if` and `ce_child` are the same function. -/
theorem parenIf_eq {r : RExpr} (hprint : rubyExpr r = cePrint e) (needsParen : Bool) :
    parenIf (rubyExpr r) needsParen = ceChild needsParen (cePrint e) := by
  rw [hprint]
  rfl

/-- The arguments of a call, one by one. -/
theorem mirrors_args {args : List Expr} (ih : ∀ a ∈ args, Mirrors a)
    (hsub : anySubscript args = false) :
    ∃ rs, toRubyAll args = some rs ∧ rubyExprs rs = args.map cePrint := by
  induction args with
  | nil => exact ⟨[], rfl, rfl⟩
  | cons a args ihargs =>
      rw [anySubscript, Bool.or_eq_false_iff] at hsub
      obtain ⟨r, hr, hprint, -⟩ := ih a List.mem_cons_self hsub.1
      obtain ⟨rs, hrs, hprints⟩ := ihargs (fun x hx => ih x (List.mem_cons_of_mem _ hx)) hsub.2
      refine ⟨r :: rs, ?_, ?_⟩
      · rw [toRubyAll, hr, hrs]
        rfl
      · rw [rubyExprs, hprint, hprints, List.map_cons]

/-- Ruby's `join` and the C loop write the same argument list. -/
theorem intercalate_eq_cePrintArgs (args : List Expr) :
    [',', ' '].intercalate (args.map cePrint) = cePrintArgs 0 args := by
  cases args with
  | nil => rfl
  | cons a args =>
      rw [cePrintArgs, cePrintArgs_succ]
      induction args generalizing a with
      | nil => simp [List.intercalate]
      | cons b args ih =>
          have hcons : [',', ' '].intercalate ((a :: b :: args).map cePrint) =
              cePrint a ++ [',', ' '] ++ [',', ' '].intercalate ((b :: args).map cePrint) := by
            simp [List.intercalate]
          rw [hcons, ih, List.flatMap_cons]
          simp

/-- **Without a subscript, the Ruby tree exists and prints the same text.** -/
theorem mirrors (e : Expr) : Mirrors e := by
  induction e using Expr.induct with
  | raw t => exact fun _ => ⟨_, rfl, rfl, rfl⟩
  | paren a ih =>
      intro hsub
      obtain ⟨r, hr, hprint, -⟩ := ih hsub
      exact ⟨.paren r, by rw [toRuby, hr]; rfl, by rw [rubyExpr, cePrint, hprint], rfl⟩
  | cast ty a ih =>
      intro hsub
      obtain ⟨r, hr, hprint, hprec⟩ := ih hsub
      refine ⟨.cast ty.text r, by rw [toRuby, hr]; rfl, ?_, rfl⟩
      rw [rubyExpr, cePrint, parenIf_eq hprint, hprec]
      rfl
  | binop op a b iha ihb =>
      intro hsub
      rw [hasSubscript, Bool.or_eq_false_iff] at hsub
      obtain ⟨l, hl, hlprint, hlprec⟩ := iha hsub.1
      obtain ⟨r, hr, hrprint, hrprec⟩ := ihb hsub.2
      refine ⟨.binop op l r, by rw [toRuby, hl, hr]; rfl, ?_, rfl⟩
      rw [rubyExpr, cePrint, parenIf_eq hlprint, parenIf_eq hrprint, hlprec, hrprec]
      rfl
  | call f args ih =>
      intro hsub
      obtain ⟨rs, hrs, hprints⟩ := mirrors_args ih hsub
      refine ⟨.call f rs, by rw [toRuby, hrs]; rfl, ?_, rfl⟩
      rw [rubyExpr, cePrint, hprints, intercalate_eq_cePrintArgs]
  | subscript a b iha ihb => exact fun hsub => absurd hsub Bool.true_eq_false_eq_False

/-- **Printing loses no structure.** What the generator prints for a tree of primary tokens,
parentheses, casts, binary operators, calls and subscripts parses to the tree, up to parenthesis
nodes; and on a tree without subscripts the Ruby printer prints the same text. -/
theorem print_roundtrip (isType : Text → Bool) (e : Expr) (he : e.WellFormed isType) :
    (∃ e', parse isType (cePrint e) = some e' ∧ strip e' = strip e) ∧
      (hasSubscript e = false → ∃ r, toRuby e = some r ∧ rubyExpr r = cePrint e) := by
  refine ⟨⟨shown e, ?_, strip_shown e⟩, fun hsub => ?_⟩
  · rw [cePrint_eq_flat]
    exact parse_flat (wellFormed_shown he) (explicit_shown e)
  · obtain ⟨r, hr, hprint, -⟩ := mirrors e hsub
    exact ⟨r, hr, hprint⟩

/-- A type's name. -/
def u64 : Text := ['_', '_', 'u', '6', '4']

/-- `(__u64)((a - b) * f(c - (d - e)))`. -/
def sample : Expr :=
  .cast ⟨u64, []⟩ (.binop .mul (.binop .sub (.raw ['a']) (.raw ['b']))
    (.call ['f'] [.binop .sub (.raw ['c']) (.binop .sub (.raw ['d']) (.raw ['e']))]))

theorem print_roundtrip_sample :
    cePrint sample = "(__u64)((a - b) * f(c - (d - e)))".toList ∧
      (∃ e', parse (· == u64) (cePrint sample) = some e' ∧ strip e' = strip sample) ∧
      (hasSubscript sample = false → ∃ r, toRuby sample = some r ∧ rubyExpr r = cePrint sample) := by
  have hword : ∀ c : Char, isWordChar c = true → ([c] == u64) = false →
      (Expr.raw [c]).WellFormed (· == u64) := by
    intro c hc htype
    refine .inl ⟨⟨List.cons_ne_nil _ _, fun d hd => ?_⟩, htype⟩
    rw [List.mem_singleton.mp hd]
    exact hc
  have hf : IsWord ['f'] := ⟨List.cons_ne_nil _ _, List.all_eq_true.mp rfl⟩
  have htype : (CType.mk u64 []).WellFormed (· == u64) :=
    ⟨⟨List.cons_ne_nil _ _, List.all_eq_true.mp rfl⟩, by decide, nofun⟩
  refine ⟨by decide, print_roundtrip _ sample ?_⟩
  refine ⟨htype, ⟨?_, ?_⟩, hf, by decide, ⟨?_, ?_, ?_⟩, trivial⟩
  all_goals exact hword _ (by decide) (by decide)

end SpinelEbpf.CAst

import SpinelEbpf.Codegen.Lower

/-!
# Codegen — Where lowering keeps the meaning

`ok` is a check on the shape of the source: locals are reached the way the code generator reaches
them, a call stands as a statement or as the whole of a right-hand side, a block returns only where
that leaves the method.  It goes by the use made of a node (`Use`).  What it leaves to the run is
whether the generated code also computes the same values, in the same order.

`droppedAll` lists the call sites whose text the code generator throws away.
-/

namespace SpinelEbpf.Codegen

/-! ### Operators -/

/-- The operators whose value is a boolean. -/
def BinOp.comparison : BinOp → Bool
  | .eq | .ne | .lt | .gt | .le | .ge => true
  | _ => false

/-- The operators that Ruby and C compute alike on 64-bit numbers. -/
def BinOp.exact : BinOp → Bool
  | .div | .mod | .shl | .shr => false
  | _ => true

/-- The operators that `true` and `false` have. -/
def BinOp.logical : BinOp → Bool
  | .eq | .ne | .band | .bor | .bxor => true
  | _ => false

/-! ### What lowering appends and what a text reads -/

mutual

/-- Whether lowering a node appends lines. -/
def appends : Node → Bool
  | .int _ | .lvar _ => false
  | .binop _ l r | .and l r | .or l r => appends l || appends r
  | .paren body => appendsAll body
  | .call _ _ args => appendsArgs args
  | _ => true

def appendsAll : List Node → Bool
  | []      => false
  | n :: ns =>
      match ns with
      | [] => appends n
      | _  => true

def appendsArgs : List Node → Bool
  | []      => false
  | n :: ns => appends n || appendsArgs ns

end

section

variable {α : Type} (f : Node → List α)

mutual

/-- What `f` finds at the nodes whose variables the text of a node reads. -/
def mentions : Node → List α
  | .lvar x => f (.lvar x)
  | .ivar x => f (.ivar x)
  | .lwrite x v => f (.lwrite x v)
  | .binop _ l r | .and l r | .or l r => mentions l ++ mentions r
  | .paren body => mentionsLast body
  | _ => []

def mentionsLast : List Node → List α
  | []      => []
  | n :: ns =>
      match ns with
      | [] => mentions n
      | _  => mentionsLast ns

end

end

/-- The instance variable a node reads. -/
def ivarRead : Node → List String
  | .ivar x => [x]
  | _       => []

mutual

/-- No effect, on any path. -/
def quiet : Node → Bool
  | .int _ | .lvar _ | .ivar _ => true
  | .binop _ l r | .and l r | .or l r => quiet l && quiet r
  | .paren body => quietAll body
  | .ifNode p t e => quiet p && quietAll t && quietAll e
  | _ => false

def quietAll : List Node → Bool
  | []      => true
  | n :: ns => quiet n && quietAll ns

end

def isCall : Node → Bool
  | .call .. => true
  | _        => false

def endsInCall : List Node → Bool
  | []      => false
  | n :: ns =>
      match ns with
      | [] => isCall n
      | _  => endsInCall ns

/-! ### Calls that are dropped -/

mutual

/-- The call sites whose text is thrown away, when that of the node itself is `kept`. -/
def dropped (kept : Bool) : Node → List Nat
  | .call site _ args => (if kept then [] else [site]) ++ droppedArgs args
  | .binop _ l r | .and l r | .or l r => dropped true l ++ dropped true r
  | .paren body      => droppedAll true body
  | .lwrite _ v | .iwrite _ v | .iopwrite _ _ v | .emit v => dropped true v
  | .ret args        => droppedArgs args
  -- the value of a branch goes into `_ifN`
  | .ifNode p t e    => dropped true p ++ droppedAll true t ++ droppedAll true e
  -- only the lines of a block are put into the loop
  | .times r _ _ body => dropped true r ++ droppedAll false body
  | .int _ | .lvar _ | .ivar _ => []

/-- Statements: a text that is not the last is kept only if nothing was appended. -/
def droppedAll (kept : Bool) : List Node → List Nat
  | []      => []
  | n :: ns =>
      match ns with
      | [] => dropped kept n
      | _  => dropped (!appends n) n ++ droppedAll kept ns

def droppedArgs : List Node → List Nat
  | []      => []
  | n :: ns => dropped true n ++ droppedArgs ns

end

/-! ### The check -/

/-- How a node is used: in an expression, as the whole of a right-hand side, or as a statement
whose value is `used` or not and whose text is `kept` or not. -/
inductive Use where
  | operand
  | rhs
  | stmt (used kept : Bool)
  deriving DecidableEq, Repr

def Use.pos : Use → Pos
  | .stmt .. => .stmt
  | _        => .expr

def Use.used : Use → Bool
  | .stmt used _ => used
  | _ => true

def Use.kept : Use → Bool
  | .stmt _ kept => kept
  | _ => true

/-- The locals in scope: those of the current C function, and, in a loop callback, those of the
method around it; the C name and the value of a local that the callback's parameter hides; whether
calls and loops are allowed for; and where maps keep their values. -/
structure Scope where
  own : List String
  outer : List String
  hidden : List (String × Word)
  callback : Bool
  hosted : Bool
  slot : Slot

namespace Scope

/-- A local that is reached the way the code generator reaches it. -/
def sees (sc : Scope) (ctx : Ctx) (x : String) : Bool :=
  if safeDup x ∈ ctx.captures then x ∈ sc.outer else x ∈ sc.own

/-- A local that is assigned, put where the code generator reaches it. -/
def add (sc : Scope) (ctx : Ctx) (x : String) : Scope :=
  if safeDup x ∈ ctx.captures then { sc with outer := x :: sc.outer }
  else { sc with own := x :: sc.own }

/-- Inside a loop that stays in the function. -/
def push (sc : Scope) (param : String) : Scope :=
  { sc with own := param :: sc.own.filter (· ≠ param) }

/-- Inside a loop callback. -/
def enter (sc : Scope) (param : String) (hidden : List (String × Word)) : Scope :=
  { sc with
    own := [param]
    outer := sc.own.filter (· ≠ param)
    hidden := hidden
    callback := true }

/-- A name that is no other's in C. -/
def fresh (sc : Scope) (x : String) : Bool :=
  safeDup x ∉ (sc.own ++ sc.outer).map safeDup

end Scope

mutual

/-- The check, with `drops` the call sites taken to be dropped. -/
@[simp] def ok (drops : Nat → Bool) (ctx : Ctx) (sc : Scope) : Use → Node → Bool
  | _, .int _  => true
  | _, .lvar x => sc.sees ctx x
  | _, .ivar _ => true
  | _, .binop _ l r | _, .and l r | _, .or l r =>
      ok drops ctx sc .operand l && ok drops ctx sc .operand r
  | _, .paren body => !endsInCall body && okAll drops ctx sc true true body
  | u, .lwrite x v => u.pos == .stmt && sc.sees ctx x && ok drops ctx sc .rhs v
  | u, .iwrite _ v => u.pos == .stmt && ok drops ctx sc .rhs v
  | u, .iopwrite _ _ v => u.pos == .stmt && ok drops ctx sc .operand v
  | u, .ret []  => u.pos == .stmt && !sc.callback
  | u, .ret [v] => u.pos == .stmt && !sc.callback && ok drops ctx sc .rhs v
  | _, .ret (_ :: _ :: _) => false
  | u, .ifNode p t e =>
      ok drops ctx sc .operand p &&
      okAll drops ctx sc u.used true t && okAll drops ctx sc u.used true e
  | u, .emit v => u.pos == .stmt && ok drops ctx sc .operand v
  | u, .call site _ args =>
      u != .operand && sc.hosted && (drops site == !u.kept) && okArgs drops ctx sc args
  | u, .times (.int _) param locals body =>
      u.pos == .stmt && !u.used && sc.hosted && locals.isEmpty && sc.fresh param &&
      okAll drops ctx (sc.push param) false false body
  | u, .times r param locals body =>
      u.pos == .stmt && !u.used && sc.hosted && locals.isEmpty && sc.fresh param &&
      !sc.callback && sc.outer.isEmpty && ok drops ctx sc .operand r &&
      okAll drops { ctx with captures := ctx.collectCaptures (safeDup param) body }
        (sc.enter param []) false false body

/-- Statements, the value of the last `used` or not and its text `kept` or not. -/
@[simp] def okAll (drops : Nat → Bool) (ctx : Ctx) (sc : Scope) (used kept : Bool) : List Node → Bool
  | []      => true
  | n :: ns =>
      match ns with
      | [] => ok drops ctx sc (.stmt used kept) n
      | _  => ok drops ctx sc (.stmt false !appends n) n && okAll drops ctx sc used kept ns

/-- Arguments, all without effect. -/
@[simp] def okArgs (drops : Nat → Bool) (ctx : Ctx) (sc : Scope) : List Node → Bool
  | []      => true
  | n :: ns => quiet n && ok drops ctx sc .operand n && okArgs drops ctx sc ns

end

/-! ### The check, constructor by constructor -/

section

variable {d : Nat → Bool} {ctx : Ctx} {sc : Scope} {u : Use} {l r v p : Node}
  {body t e : List Node} {x : String}

theorem ok_binop {op : BinOp} : ok d ctx sc u (.binop op l r) = true ↔
    ok d ctx sc .operand l = true ∧ ok d ctx sc .operand r = true := by
  simp only [ok, Bool.and_eq_true]

theorem ok_and : ok d ctx sc u (.and l r) = true ↔
    ok d ctx sc .operand l = true ∧ ok d ctx sc .operand r = true := by
  simp only [ok, Bool.and_eq_true]

theorem ok_or : ok d ctx sc u (.or l r) = true ↔
    ok d ctx sc .operand l = true ∧ ok d ctx sc .operand r = true := by
  simp only [ok, Bool.and_eq_true]

/-- Parentheses do not end in a call. -/
theorem ok_paren : ok d ctx sc u (.paren body) = true ↔
    endsInCall body = false ∧ okAll d ctx sc true true body = true := by
  simp only [ok, Bool.and_eq_true, Bool.not_eq_true']

/-- A write is a statement, of a local in scope. -/
theorem ok_lwrite : ok d ctx sc u (.lwrite x v) = true ↔
    u.pos = .stmt ∧ sc.sees ctx x = true ∧ ok d ctx sc .rhs v = true := by
  simp only [ok, Bool.and_eq_true, beq_iff_eq, and_assoc]

theorem ok_iwrite : ok d ctx sc u (.iwrite x v) = true ↔
    u.pos = .stmt ∧ ok d ctx sc .rhs v = true := by
  simp only [ok, Bool.and_eq_true, beq_iff_eq]

theorem ok_iopwrite {op : BinOp} : ok d ctx sc u (.iopwrite x op v) = true ↔
    u.pos = .stmt ∧ ok d ctx sc .operand v = true := by
  simp only [ok, Bool.and_eq_true, beq_iff_eq]

theorem ok_ret_nil : ok d ctx sc u (.ret []) = true ↔ u.pos = .stmt ∧ sc.callback = false := by
  simp only [ok, Bool.and_eq_true, beq_iff_eq, Bool.not_eq_true']

/-- A callback does not return. -/
theorem ok_ret : ok d ctx sc u (.ret [v]) = true ↔
    u.pos = .stmt ∧ sc.callback = false ∧ ok d ctx sc .rhs v = true := by
  simp only [ok, Bool.and_eq_true, beq_iff_eq, Bool.not_eq_true', and_assoc]

theorem ok_if : ok d ctx sc u (.ifNode p t e) = true ↔
    ok d ctx sc .operand p = true ∧ okAll d ctx sc u.used true t = true ∧
      okAll d ctx sc u.used true e = true := by
  simp only [ok, Bool.and_eq_true, and_assoc]

theorem ok_emit : ok d ctx sc u (.emit v) = true ↔
    u.pos = .stmt ∧ ok d ctx sc .operand v = true := by
  simp only [ok, Bool.and_eq_true, beq_iff_eq]

/-- A call is dropped just where its text is not kept. -/
theorem ok_call {site : Nat} {f : Callee} : ok d ctx sc u (.call site f body) = true ↔
    u ≠ .operand ∧ sc.hosted = true ∧ d site = !u.kept ∧ okArgs d ctx sc body = true := by
  simp only [ok, Bool.and_eq_true, beq_iff_eq, bne_iff_ne, and_assoc]

theorem ok_times_literal {n : Int} {locals : List String} :
    ok d ctx sc u (.times (.int n) x locals body) = true ↔
      u.pos = .stmt ∧ u.used = false ∧ sc.hosted = true ∧ locals = [] ∧ sc.fresh x = true ∧
        okAll d ctx (sc.push x) false false body = true := by
  simp only [ok, Bool.and_eq_true, beq_iff_eq, Bool.not_eq_true', List.isEmpty_iff, and_assoc]

/-- A block has no locals of its own, and its parameter hides none. -/
theorem ok_times {locals : List String} (hr : ∀ n, r ≠ .int n) :
    ok d ctx sc u (.times r x locals body) = true ↔
      u.pos = .stmt ∧ u.used = false ∧ sc.hosted = true ∧ locals = [] ∧ sc.fresh x = true ∧
        sc.callback = false ∧ sc.outer = [] ∧ ok d ctx sc .operand r = true ∧
        okAll d { ctx with captures := ctx.collectCaptures (safeDup x) body } (sc.enter x [])
          false false body = true := by
  rw [ok]
  · simp only [Bool.and_eq_true, beq_iff_eq, Bool.not_eq_true', List.isEmpty_iff, and_assoc]
  · exact hr

theorem okAll_cons {used kept : Bool} {n m : Node} {ns : List Node} :
    okAll d ctx sc used kept (n :: m :: ns) = true ↔
      ok d ctx sc (.stmt false !appends n) n = true ∧
        okAll d ctx sc used kept (m :: ns) = true :=
  Bool.and_eq_true_iff

theorem okArgs_cons {n : Node} {ns : List Node} : okArgs d ctx sc (n :: ns) = true ↔
    quiet n = true ∧ ok d ctx sc .operand n = true ∧ okArgs d ctx sc ns = true := by
  simp only [okArgs, Bool.and_eq_true, and_assoc]

end

/-! ### Fresh indices and appended lines -/

/-- Indices are counted up, and lines are appended just when `appends` says so. -/
structure Appended (k : Nat) (appends : Bool) (code : List CStmt) (fresh : Nat) : Prop where
  fresh : k ≤ fresh
  code : code = [] ↔ appends = false

theorem Appended.append {k a b : Nat} {p q : Bool} {ss ts : List CStmt} (h₁ : Appended k p ss a)
    (h₂ : Appended a q ts b) : Appended k (p || q) (ss ++ ts) b :=
  ⟨h₁.fresh.trans h₂.fresh, by simp [h₁.code, h₂.code]⟩

/-- More lines, the last of which is a line at any rate. -/
theorem Appended.more {k a b : Nat} {p : Bool} {ss ts : List CStmt} (h : Appended k p ss a)
    (hts : ts ≠ []) (hab : a ≤ b) : Appended k true (ss ++ ts) b :=
  ⟨h.fresh.trans hab, by simp [hts]⟩

/-- Only a `return` has no text, and it is a line. -/
theorem lower_text {ctx : Ctx} {pos : Pos} {n : Node} {k : Nat} {o : Out}
    (h : lower ctx pos n k = .ok o) (htext : o.text = none) : o.code ≠ [] := by
  cases n with
  | int _ => rw [lower] at h; cases h; exact nomatch htext
  | lvar _ => rw [lower] at h; cases h; exact nomatch htext
  | ivar _ => rw [lower] at h; cases h; exact nomatch htext
  | binop _ l r => obtain ⟨_, _, _, _, rfl⟩ := lower_binop h; exact nomatch htext
  | and l r => obtain ⟨_, _, _, _, rfl⟩ := lower_and h; exact nomatch htext
  | or l r => obtain ⟨_, _, _, _, rfl⟩ := lower_or h; exact nomatch htext
  | paren body =>
      rcases lower_paren h with ⟨_, rfl⟩ | ⟨_, _, rfl⟩
      · exact nomatch htext
      · exact nomatch htext
  | lwrite _ v => obtain ⟨_, _, rfl⟩ := lower_lwrite h; exact nomatch htext
  | iwrite _ v => obtain ⟨_, _, rfl⟩ := lower_iwrite h; exact nomatch htext
  | iopwrite _ _ v => obtain ⟨_, _, rfl⟩ := lower_iopwrite h; exact nomatch htext
  | ret args =>
      rcases lower_ret h with ⟨_, rfl⟩ | ⟨_, _, _, _, _, rfl⟩
      · simp
      · simp
  | ifNode p t e => obtain ⟨_, _, _, _, _, _, rfl⟩ := lower_if h; exact nomatch htext
  | emit v => obtain ⟨_, _, rfl⟩ := lower_emit h; exact nomatch htext
  | call _ _ args => obtain ⟨_, _, rfl⟩ := lower_call h; exact nomatch htext
  | times r _ _ body =>
      by_cases hr : ∃ n, r = .int n
      · obtain ⟨n, rfl⟩ := hr
        obtain ⟨_, _, rfl⟩ := lower_times_literal h
        exact nomatch htext
      · obtain ⟨_, _, _, _, _, _, rfl⟩ := lower_times (not_exists.mp hr) h
        exact nomatch htext

/-- A statement before the last leaves a line. -/
theorem code_keepText {ctx : Ctx} {pos : Pos} {n : Node} {k : Nat} {o : Out}
    (h : lower ctx pos n k = .ok o) : o.code ++ keepText o ≠ [] := by
  by_cases hcode : o.code = []
  · cases ht : o.text with
    | none => exact absurd hcode (lower_text h ht)
    | some t => simp [keepText, hcode, ht]
  · simp [hcode]

mutual

/-- **What lowering appends.**  Numbers go up, and there are lines just where `appends` says so. -/
theorem lower_appended : ∀ (n : Node) {ctx : Ctx} {pos : Pos} {k : Nat} {o : Out},
    lower ctx pos n k = .ok o → Appended k (appends n) o.code o.fresh
  | .int _, _, _, _, _, h => by
      rw [lower] at h
      cases h
      exact ⟨le_rfl, by simp [appends]⟩
  | .lvar _, _, _, _, _, h => by
      rw [lower] at h
      cases h
      exact ⟨le_rfl, by simp [appends]⟩
  | .ivar _, _, _, _, _, h => by
      rw [lower] at h
      cases h
      exact ⟨by simp, by simp [appends]⟩
  | .binop _ l r, _, _, _, _, h => by
      obtain ⟨a, b, ha, hb, rfl⟩ := lower_binop h
      exact (lower_appended l ha).append (lower_appended r hb)
  | .and l r, _, _, _, _, h => by
      obtain ⟨a, b, ha, hb, rfl⟩ := lower_and h
      exact (lower_appended l ha).append (lower_appended r hb)
  | .or l r, _, _, _, _, h => by
      obtain ⟨a, b, ha, hb, rfl⟩ := lower_or h
      exact (lower_appended l ha).append (lower_appended r hb)
  | .paren body, _, _, _, _, h => by
      rcases lower_paren h with ⟨rfl, rfl⟩ | ⟨a, ha, rfl⟩
      · exact ⟨le_rfl, by simp [appends, appendsAll]⟩
      · have hb := lowerAll_appended body ha
        exact ⟨hb.fresh, hb.code⟩
  | .lwrite _ v, _, _, _, _, h => by
      obtain ⟨a, ha, rfl⟩ := lower_lwrite h
      exact (lower_appended v ha).more (by simp) (by simp)
  | .iwrite _ v, _, _, _, _, h => by
      obtain ⟨a, ha, rfl⟩ := lower_iwrite h
      exact (lower_appended v ha).more (by simp) (by simp)
  | .iopwrite _ _ v, _, _, _, _, h => by
      obtain ⟨a, ha, rfl⟩ := lower_iopwrite h
      exact (lower_appended v ha).more (by simp) (by simp)
  | .ret args, _, _, _, _, h => by
      rcases lower_ret h with ⟨rfl, rfl⟩ | ⟨v, a, rfl, _, ha, rfl⟩
      · exact ⟨le_rfl, by simp [appends]⟩
      · exact (lower_appended v ha).more (by simp) (by simp)
  | .ifNode p t e, _, _, _, _, h => by
      obtain ⟨c, tb, eb, hc, ht, he, rfl⟩ := lower_if h
      have hpt := (lower_appended p hc).fresh
      have htt := (lowerAll_appended t ht).fresh
      have het := (lowerAll_appended e he).fresh
      exact ⟨by dsimp only; omega, by simp [appends]⟩
  | .emit v, _, _, _, _, h => by
      obtain ⟨a, ha, rfl⟩ := lower_emit h
      exact (lower_appended v ha).more (by simp) (by simp)
  | .call _ _ args, _, _, _, _, h => by
      obtain ⟨as, has, rfl⟩ := lower_call h
      exact lowerArgs_appended args has
  | .times r _ _ body, _, _, _, _, h => by
      by_cases hr : ∃ n, r = .int n
      · obtain ⟨n, rfl⟩ := hr
        obtain ⟨a, ha, rfl⟩ := lower_times_literal h
        exact ⟨(lowerAll_appended body ha).fresh, by simp [appends]⟩
      · obtain ⟨a, b, own, _, _, hb, rfl⟩ := lower_times (not_exists.mp hr) h
        exact (lower_appended r hb).more (by simp) (by simp)

theorem lowerAll_appended : ∀ (ns : List Node) {ctx : Ctx} {k : Nat} {o : Out},
    lowerAll ctx ns k = .ok o → Appended k (appendsAll ns) o.code o.fresh
  | [], _, _, _, h => by
      cases h
      exact ⟨le_rfl, by simp [appendsAll]⟩
  | [n], _, _, _, h => lower_appended n h
  | n :: m :: ns, _, _, _, h => by
      obtain ⟨a, b, ha, hb, rfl⟩ := lowerAll_cons h
      have hn := lower_appended n ha
      have hns := lowerAll_appended (m :: ns) hb
      exact ⟨hn.fresh.trans hns.fresh, iff_of_false
        (fun he => code_keepText ha (List.append_eq_nil_iff.mp he).1) (by simp [appendsAll])⟩

theorem lowerArgs_appended : ∀ (ns : List Node) {ctx : Ctx} {k : Nat}
    {as : List CStmt × List CExpr × Nat}, lowerArgs ctx ns k = .ok as →
    Appended k (appendsArgs ns) as.1 as.2.2
  | [], _, _, _, h => by
      cases h
      exact ⟨le_rfl, by simp [appendsArgs]⟩
  | n :: ns, _, _, _, h => by
      obtain ⟨a, bs, ha, hbs, rfl⟩ := lowerArgs_cons h
      exact (lower_appended n ha).append (lowerArgs_appended ns hbs)

end

end SpinelEbpf.Codegen

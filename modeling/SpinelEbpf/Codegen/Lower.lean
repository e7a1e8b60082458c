import SpinelEbpf.Codegen.Target
import SpinelEbpf.Support.Checked

/-!
# Codegen — Lowering

`cc_lower_expr`, `cc_lower_stmt` and what they call, on Linux.  Lowering a node appends lines to
the body and hands back the text of its value: the lines run where they stand, the text wherever
the caller puts it.  A lowering is given as the lines it appends, that text, and the next fresh
index (`Out`); `Pos` tells the two functions apart.

A statement that is not the last of its list and appended no line is kept as `(void)(…);`.  If it
appended one, its text is dropped.
-/

namespace SpinelEbpf.Codegen

/-- Why the code generator gives up. -/
inductive Reject where
  | returnTuple
  | returnValue
  | ivarOperator
  | timesNegative
  | notLowered (node : String)
  | notBuiltin (name : String)
  deriving DecidableEq, Repr

/-- The text of `die`, in method `method`. -/
def Reject.message (method : String) : Reject → String
  | .returnTuple =>
      "`return a, b` returns a tuple, and a BPF program returns one integer.\n" ++
      "  Write it as: return <one expression>: ReturnNode"
  | .returnValue =>
      "`return <value>` in a handler whose value is never used.\n" ++
      "  Why: this method was inferred to return nothing, so there is no slot " ++
      "for the value to go into.\n" ++
      "  Write it as: `return` on its own, or make the last expression of the " ++
      "method the value you want (a verdict hook returns the last expression): " ++ method
  | .ivarOperator => "ivar operator not supported (Stage 1)"
  | .timesNegative => "n.times open-coded: n must be >= 0"
  | .notLowered node =>
      "`" ++ node ++ "` is not part of the Ruby subset that lowers to eBPF.\n" ++
      "  The subset is published: `spinel-ebpf capabilities --json` -> `syntax` " ++
      "(each entry carries the exact spelling and the machine it lowers to).\n" ++
      "  You wrote it in: " ++ method
  | .notBuiltin name =>
      "`" ++ name ++ "` is not a builtin, and no `def " ++ name ++
      "` in this file defines it, so there is nothing to lower it to.\n" ++
      "  Two ways forward: define it here -- `def " ++ name ++ "(...)` in the same file " ++
      "becomes a BPF-to-BPF call -- or use a builtin.\n" ++
      "  `spinel-ebpf capabilities --json` lists every builtin with its " ++
      "signature; `spinel-ebpf check <file>` names the nearest one when a " ++
      "spelling is close.\n" ++
      "  You wrote it in: " ++ method

/-- Expression or statement position. -/
inductive Pos where
  | expr
  | stmt
  deriving DecidableEq, Repr

/-- What lowering reads: the prefix of the ivar maps, whether the method has no value, the names
a callback may capture, and those the current one does capture. -/
structure Ctx where
  mapPrefix : String
  void : Bool
  outer : List String
  captures : Captures

/-- `cc_ivar_map`. -/
def Ctx.ivarMap (ctx : Ctx) (x : String) : String := ctx.mapPrefix ++ x

/-- The text of a local. -/
def Ctx.readLocal (ctx : Ctx) (s : String) : CExpr :=
  if s ∈ ctx.captures then .captured s else .var (.user s)

/-- The line that assigns a local. -/
def Ctx.writeLocal (ctx : Ctx) (s : String) (e : CExpr) : CStmt :=
  if s ∈ ctx.captures then .assignCaptured s e else .assign s e

/-- `cc_collect_captures`. -/
def Ctx.collectCaptures (ctx : Ctx) (param : String) (body : List Node) : Captures :=
  (collectRefs body).eraseDups.filter fun s => s ≠ param ∧ s ∈ ctx.outer

/-- The C function behind a callee. -/
def Callee.function : Callee → String
  | .method name  => name ++ "_inner"
  | .builtin name => "spnl_" ++ name

/-- Lines appended, the text of the value, and the last index used. -/
structure Out where
  code : List CStmt
  text : Option CExpr
  fresh : Nat

/-- The text where a value is wanted. -/
def Out.value (o : Out) : CExpr := o.text.getD (.int 0)

/-- `cc_branch_block`: the lines of a branch, and its value into `_ifN`. -/
def branchBlock (o : Out) (n : Nat) : List CStmt :=
  match o.text with
  | some t => o.code ++ [.assignIf n t]
  | none   => o.code

/-- What becomes of the text of a statement that is not the last. -/
def keepText (o : Out) : List CStmt :=
  if o.code.isEmpty then
    match o.text with
    | some t => [.discard t]
    | none   => []
  else []

/-- The declarations of locals. -/
def declareLocals (names : List String) : List CStmt :=
  names.eraseDups.map fun s => .decl (.user s) (.int 0)

mutual

/-- `cc_lower_expr` and `cc_lower_stmt`. -/
@[simp] def lower (ctx : Ctx) : Pos → Node → Nat → Except Reject Out
  | _, .int v, k  => .ok ⟨[], some (.int v), k⟩
  | _, .lvar x, k => .ok ⟨[], some (ctx.readLocal (safeDup x)), k⟩
  -- cc_emit_ivar_read
  | _, .ivar x, k =>
      .ok ⟨[.key (k + 1), .lookup (k + 2) (ctx.ivarMap x) (k + 1)], some (.load (k + 2)), k + 2⟩
  -- cc_build_expr
  | _, .binop op l r, k => do
      let a ← lower ctx .expr l k
      let b ← lower ctx .expr r a.fresh
      .ok ⟨a.code ++ b.code, some (.binop op a.value b.value), b.fresh⟩
  | _, .and l r, k => do
      let a ← lower ctx .expr l k
      let b ← lower ctx .expr r a.fresh
      .ok ⟨a.code ++ b.code, some (.land a.value b.value), b.fresh⟩
  | _, .or l r, k => do
      let a ← lower ctx .expr l k
      let b ← lower ctx .expr r a.fresh
      .ok ⟨a.code ++ b.code, some (.lor a.value b.value), b.fresh⟩
  | _, .paren [], k => .ok ⟨[], some (.int 0), k⟩
  | _, .paren (n :: ns), k => do
      let o ← lowerAll ctx (n :: ns) k
      .ok ⟨o.code, some (.paren o.value), o.fresh⟩
  | .expr, .lwrite .., _   => .error (.notLowered "LocalVariableWriteNode")
  | .expr, .iwrite .., _   => .error (.notLowered "InstanceVariableWriteNode")
  | .expr, .iopwrite .., _ => .error (.notLowered "InstanceVariableOperatorWriteNode")
  | .expr, .ret .., _      => .error (.notLowered "ReturnNode")
  | .expr, .emit .., _     => .error (.notBuiltin "spnl_emit")
  | .expr, .times .., _    => .error (.notBuiltin "times")
  | .stmt, .lwrite x v, k => do
      let o ← lower ctx .expr v k
      .ok ⟨o.code ++ [ctx.writeLocal (safeDup x) o.value], some (ctx.readLocal (safeDup x)), o.fresh⟩
  -- cc_emit_ivar_write
  | .stmt, .iwrite x v, k => do
      let o ← lower ctx .expr v k
      let n := o.fresh
      .ok ⟨o.code ++ [.key (n + 1), .decl (.val (n + 2)) o.value,
            .update (ctx.ivarMap x) (n + 1) (n + 2)],
          some (.var (.val (n + 2))), n + 2⟩
  -- cc_emit_ivar_rmw
  | .stmt, .iopwrite x op v, k =>
      if op = .add ∨ op = .sub ∨ op = .mul then do
        let o ← lower ctx .expr v k
        let n := o.fresh
        .ok ⟨o.code ++ [.key (n + 1), .lookup (n + 2) (ctx.ivarMap x) (n + 1),
              .decl (.val (n + 3)) (.binop op (.load (n + 2)) (.paren o.value)),
              .update (ctx.ivarMap x) (n + 1) (n + 3)],
            some (.var (.val (n + 3))), n + 3⟩
      else .error .ivarOperator
  | .stmt, .ret [], k =>
      .ok ⟨[.ret (if ctx.void then none else some (.int 0))], none, k⟩
  | .stmt, .ret [v], k =>
      if ctx.void then .error .returnValue
      else do
        let o ← lower ctx .expr v k
        .ok ⟨o.code ++ [.ret (some o.value)], none, o.fresh⟩
  | .stmt, .ret (_ :: _ :: _), _ => .error .returnTuple
  -- cc_if_node
  | _, .ifNode p t e, k => do
      let c ← lower ctx .expr p k
      let n := c.fresh + 1
      let tb ← lowerAll ctx t n
      let eb ← lowerAll ctx e tb.fresh
      .ok ⟨c.code ++ [.decl (.ifTmp n) (.int 0),
            .cond c.value (branchBlock tb n) (branchBlock eb n)],
          some (.var (.ifTmp n)), eb.fresh⟩
  | .stmt, .emit v, k => do
      let o ← lower ctx .expr v k
      .ok ⟨o.code ++ [.emit (o.fresh + 1) o.value], some (.int 0), o.fresh + 1⟩
  | _, .call site f args, k => do
      let as ← lowerArgs ctx args k
      .ok ⟨as.1, some (.call site f.function as.2.1), as.2.2⟩
  -- cc_times_open_coded
  | .stmt, .times (.int n) param _ body, k =>
      if n < 0 then .error .timesNegative
      else do
        let o ← lowerAll ctx body k
        .ok ⟨[.iter (safeDup param) n o.code], some (.int 0), o.fresh⟩
  -- cc_times_call
  | .stmt, .times r param _ body, k => do
      let caps := ctx.collectCaptures (safeDup param) body
      let o ← lowerAll { ctx with captures := caps } body 0
      let own := (collectLocals body).filter fun s => s ≠ safeDup param ∧ s ∉ caps
      let b ← lower ctx .expr r k
      .ok ⟨b.code ++ [.bpfLoop b.value (safeDup param) (declareLocals own ++ o.code)],
          some (.int 0), b.fresh⟩

/-- The `StatementsNode` of `cc_lower_stmt`. -/
@[simp] def lowerAll (ctx : Ctx) : List Node → Nat → Except Reject Out
  | [], k      => .ok ⟨[], none, k⟩
  | n :: ns, k =>
      match ns with
      | [] => lower ctx .stmt n k
      | _  => do
          let a ← lower ctx .stmt n k
          let b ← lowerAll ctx ns a.fresh
          .ok ⟨a.code ++ keepText a ++ b.code, b.text, b.fresh⟩

/-- The arguments of a call. -/
@[simp] def lowerArgs (ctx : Ctx) : List Node → Nat → Except Reject (List CStmt × List CExpr × Nat)
  | [], k      => .ok ([], [], k)
  | n :: ns, k => do
      let a ← lower ctx .expr n k
      let as ← lowerArgs ctx ns a.fresh
      .ok (a.code ++ as.1, a.value :: as.2.1, as.2.2)

end

/-! ### What a lowering is made of -/

export Checked (bind_ok bind_ok_last bind_ok_last₂)

section

variable {ctx : Ctx} {pos : Pos} {k : Nat} {o : Out} {l r v p : Node} {body t e : List Node}
  {x : String}

/-- The left operand's code stands first; the operator itself is text. -/
theorem lower_binop {op : BinOp} (h : lower ctx pos (.binop op l r) k = .ok o) :
    ∃ a b, lower ctx .expr l k = .ok a ∧ lower ctx .expr r a.fresh = .ok b ∧
      o = ⟨a.code ++ b.code, some (.binop op a.value b.value), b.fresh⟩ := by
  rw [lower] at h
  exact bind_ok_last₂ h

/-- Both operands' code is emitted: only the text has the short circuit. -/
theorem lower_and (h : lower ctx pos (.and l r) k = .ok o) :
    ∃ a b, lower ctx .expr l k = .ok a ∧ lower ctx .expr r a.fresh = .ok b ∧
      o = ⟨a.code ++ b.code, some (.land a.value b.value), b.fresh⟩ := by
  rw [lower] at h
  exact bind_ok_last₂ h

theorem lower_or (h : lower ctx pos (.or l r) k = .ok o) :
    ∃ a b, lower ctx .expr l k = .ok a ∧ lower ctx .expr r a.fresh = .ok b ∧
      o = ⟨a.code ++ b.code, some (.lor a.value b.value), b.fresh⟩ := by
  rw [lower] at h
  exact bind_ok_last₂ h

/-- Parentheses are the last statement's text in parentheses, and `0` when empty. -/
theorem lower_paren (h : lower ctx pos (.paren body) k = .ok o) :
    (body = [] ∧ o = ⟨[], some (.int 0), k⟩) ∨
      ∃ a, lowerAll ctx body k = .ok a ∧ o = ⟨a.code, some (.paren a.value), a.fresh⟩ := by
  cases body with
  | nil =>
      rw [lower] at h
      exact .inl ⟨rfl, (Except.ok.inj h).symm⟩
  | cons n ns =>
      rw [lower] at h
      exact .inr (bind_ok_last h)

/-- A write to a local is a statement, and its text reads the local back. -/
theorem lower_lwrite (h : lower ctx pos (.lwrite x v) k = .ok o) :
    ∃ a, lower ctx .expr v k = .ok a ∧
      o = ⟨a.code ++ [ctx.writeLocal (safeDup x) a.value], some (ctx.readLocal (safeDup x)),
        a.fresh⟩ := by
  cases pos with
  | expr => simp [lower] at h
  | stmt =>
      rw [lower] at h
      exact bind_ok_last h

/-- A write to an instance variable stores a copy of the value, which is its text. -/
theorem lower_iwrite (h : lower ctx pos (.iwrite x v) k = .ok o) :
    ∃ a, lower ctx .expr v k = .ok a ∧
      o = ⟨a.code ++ [.key (a.fresh + 1), .decl (.val (a.fresh + 2)) a.value,
          .update (ctx.ivarMap x) (a.fresh + 1) (a.fresh + 2)],
        some (.var (.val (a.fresh + 2))), a.fresh + 2⟩ := by
  cases pos with
  | expr => simp [lower] at h
  | stmt =>
      rw [lower] at h
      exact bind_ok_last h

/-- The map is looked up after the operand's code, and the sum is copied and stored. -/
theorem lower_iopwrite {op : BinOp} (h : lower ctx pos (.iopwrite x op v) k = .ok o) :
    ∃ a, lower ctx .expr v k = .ok a ∧
      o = ⟨a.code ++ [.key (a.fresh + 1), .lookup (a.fresh + 2) (ctx.ivarMap x) (a.fresh + 1),
          .decl (.val (a.fresh + 3)) (.binop op (.load (a.fresh + 2)) (.paren a.value)),
          .update (ctx.ivarMap x) (a.fresh + 1) (a.fresh + 3)],
        some (.var (.val (a.fresh + 3))), a.fresh + 3⟩ := by
  cases pos with
  | expr => simp [lower] at h
  | stmt =>
      rw [lower] at h
      by_cases hop : op = .add ∨ op = .sub ∨ op = .mul
      · rw [if_pos hop] at h
        exact bind_ok_last h
      · rw [if_neg hop] at h
        exact nomatch h

/-- A `return` has no text; in a `void` method it has no value either. -/
theorem lower_ret (h : lower ctx pos (.ret body) k = .ok o) :
    (body = [] ∧ o = ⟨[.ret (if ctx.void then none else some (.int 0))], none, k⟩) ∨
      ∃ v a, body = [v] ∧ ctx.void = false ∧ lower ctx .expr v k = .ok a ∧
        o = ⟨a.code ++ [.ret (some a.value)], none, a.fresh⟩ := by
  cases pos with
  | expr => simp [lower] at h
  | stmt =>
      match body with
      | [] =>
          rw [lower] at h
          exact .inl ⟨rfl, (Except.ok.inj h).symm⟩
      | [v] =>
          rw [lower] at h
          cases hvoid : ctx.void with
          | true =>
              rw [hvoid] at h
              exact nomatch h
          | false =>
              rw [hvoid] at h
              obtain ⟨a, ha, h⟩ := bind_ok h
              exact .inr ⟨v, a, rfl, rfl, ha, (Except.ok.inj h).symm⟩
      | _ :: _ :: _ =>
          rw [lower] at h
          exact nomatch h

/-- The value of an `if` is a variable that both branches assign. -/
theorem lower_if (h : lower ctx pos (.ifNode p t e) k = .ok o) :
    ∃ c tb eb, lower ctx .expr p k = .ok c ∧ lowerAll ctx t (c.fresh + 1) = .ok tb ∧
      lowerAll ctx e tb.fresh = .ok eb ∧
      o = ⟨c.code ++ [.decl (.ifTmp (c.fresh + 1)) (.int 0),
          .cond c.value (branchBlock tb (c.fresh + 1)) (branchBlock eb (c.fresh + 1))],
        some (.var (.ifTmp (c.fresh + 1))), eb.fresh⟩ := by
  rw [lower] at h
  obtain ⟨c, hc, h⟩ := bind_ok h
  obtain ⟨tb, ht, h⟩ := bind_ok h
  obtain ⟨eb, he, h⟩ := bind_ok h
  exact ⟨c, tb, eb, hc, ht, he, (Except.ok.inj h).symm⟩

/-- An `emit` takes a number for its record, and its text is `0`. -/
theorem lower_emit (h : lower ctx pos (.emit v) k = .ok o) :
    ∃ a, lower ctx .expr v k = .ok a ∧
      o = ⟨a.code ++ [.emit (a.fresh + 1) a.value], some (.int 0), a.fresh + 1⟩ := by
  cases pos with
  | expr => simp [lower] at h
  | stmt =>
      rw [lower] at h
      exact bind_ok_last h

theorem lower_call {site : Nat} {f : Callee} (h : lower ctx pos (.call site f body) k = .ok o) :
    ∃ as, lowerArgs ctx body k = .ok as ∧
      o = ⟨as.1, some (.call site f.function as.2.1), as.2.2⟩ := by
  rw [lower] at h
  exact bind_ok_last h

/-- With a literal count the body is lowered in place, under the caller's numbering. -/
theorem lower_times_literal {n : Int} {locals : List String}
    (h : lower ctx pos (.times (.int n) x locals body) k = .ok o) :
    ∃ a, lowerAll ctx body k = .ok a ∧
      o = ⟨[.iter (safeDup x) n a.code], some (.int 0), a.fresh⟩ := by
  cases pos with
  | expr => simp [lower] at h
  | stmt =>
      rw [lower] at h
      by_cases hn : n < 0
      · rw [if_pos hn] at h
        exact nomatch h
      · rw [if_neg hn] at h
        exact bind_ok_last h

/-- With any other count the body is a callback: captures for what it shares with the
caller, locals of its own, and temporaries numbered from zero. -/
theorem lower_times {locals : List String} (hr : ∀ n, r ≠ .int n)
    (h : lower ctx pos (.times r x locals body) k = .ok o) :
    ∃ a b own, (∀ s ∈ own, s ≠ safeDup x) ∧
      lowerAll { ctx with captures := ctx.collectCaptures (safeDup x) body } body 0 = .ok a ∧
      lower ctx .expr r k = .ok b ∧
      o = ⟨b.code ++ [.bpfLoop b.value (safeDup x) (declareLocals own ++ a.code)],
        some (.int 0), b.fresh⟩ := by
  cases pos with
  | expr => simp [lower] at h
  | stmt =>
      rw [lower] at h
      · obtain ⟨a, ha, h⟩ := bind_ok h
        obtain ⟨b, hb, h⟩ := bind_ok h
        refine ⟨a, b, _, fun s hs => ?_, ha, hb, (Except.ok.inj h).symm⟩
        simp only [List.mem_filter, decide_eq_true_eq] at hs
        exact hs.2.1
      · exact hr

/-- Between statements the text of the earlier one is kept as a statement. -/
theorem lowerAll_cons {n m : Node} {ns : List Node} (h : lowerAll ctx (n :: m :: ns) k = .ok o) :
    ∃ a b, lower ctx .stmt n k = .ok a ∧ lowerAll ctx (m :: ns) a.fresh = .ok b ∧
      o = ⟨a.code ++ keepText a ++ b.code, b.text, b.fresh⟩ := by
  exact bind_ok_last₂ h

theorem lowerArgs_cons {n : Node} {ns : List Node} {as : List CStmt × List CExpr × Nat}
    (h : lowerArgs ctx (n :: ns) k = .ok as) :
    ∃ a bs, lower ctx .expr n k = .ok a ∧ lowerArgs ctx ns a.fresh = .ok bs ∧
      as = (a.code ++ bs.1, a.value :: bs.2.1, bs.2.2) := by
  rw [lowerArgs] at h
  exact bind_ok_last₂ h

end

/-- The context of a method's body. -/
def Method.ctx (m : Method) (mapPrefix : String) : Ctx :=
  ⟨mapPrefix, m.void, m.params.map safeDup ++ collectLocals m.body, []⟩

/-- The names declared at the top of the generated function. -/
def Method.declared (m : Method) : List String :=
  (collectLocals m.body).filter fun s => s ∉ m.params.map safeDup

/-- `cc_emit_method_body`. -/
def emitMethodBody (m : Method) (mapPrefix : String) : Except Reject (List CStmt) := do
  let o ← lowerAll (m.ctx mapPrefix) m.body 0
  .ok (declareLocals m.declared ++ o.code ++ if m.void then [] else [.ret (some o.value)])

/-- The state the generated function starts from.  The frame holds the arguments and, besides them,
anything. -/
def startC (slot : Slot) (params : List String) (args : List Word) (maps : String → Word)
    (frame : CVar → Word) : CState where
  vars
    | .user s => ((params.map safeDup).zip args).lookup s |>.getD (frame (.user s))
    | x       => frame x
  caps _ := 0#64
  ptrs _ := ⟨"", 0#64⟩
  maps := maps
  slot := slot
  trace := []

/-- A call of the generated function. -/
def callC (h : CHost) (slot : Slot) (code : List CStmt) (params : List String) (args : List Word)
    (maps : String → Word) (frame : CVar → Word) : Outcome (Option Word) Unit × CState :=
  execAll h code (startC slot params args maps frame)

end SpinelEbpf.Codegen

import SpinelEbpf.Codegen.Fragment

/-!
# Codegen — The AMP target

With `--target amp-m7` an instance variable is a 32-bit word of the ivar carveout,
`(*(volatile __u32 *)(SPNL_AMP_IVARS_BASE + 4 * slot))`, read and written where its name stands,
and `spnl_emit` is a call of `amp_emit`, which takes an `unsigned long long`.  Locals are `__s64`
and integer literals `int`, as everywhere.  So the generated C mixes three integer types, and the
usual arithmetic conversions decide at which one an operator works: `CVal`, `usual`,
`BinOp.onAmp`.

Lowering (`lowerAmp`) is `cc_lower_expr` and `cc_lower_stmt` with `g_amp` set.  A word is written
with its slot; the slots are given out in the order in which lowering first meets the names
(`ampIvars`).  `ktime_ns` is left out.
-/

namespace SpinelEbpf.Codegen
open Function Outcome

/-! ### Typed values -/

/-- A C value of type `int`, `__u32` or `__s64`. -/
inductive CVal where
  | int (b : BitVec 32)
  | u32 (b : BitVec 32)
  | s64 (b : Word)
  deriving DecidableEq, Repr

/-- The conversion to `__s64`, or to `unsigned long long`: the bits are the same. -/
def CVal.widen : CVal → Word
  | .int b => b.signExtend 64
  | .u32 b => b.setWidth 64
  | .s64 b => b

/-- The conversion to `__u32`. -/
def CVal.narrow : CVal → BitVec 32
  | .int b => b
  | .u32 b => b
  | .s64 b => b.setWidth 32

/-- Not zero. -/
def CVal.isTrue : CVal → Bool
  | .int b => b != 0#32
  | .u32 b => b != 0#32
  | .s64 b => b != 0#64

/-- The result of a comparison is an `int`. -/
def CVal.ofBool (b : Bool) : CVal := .int (if b then 1#32 else 0#32)

/-- Two operands at their common type. -/
inductive Converted where
  | at32 (signed : Bool) (a b : BitVec 32)
  | at64 (a b : Word)

/-- The usual arithmetic conversions. -/
def usual : CVal → CVal → Converted
  | .int a, .int b => .at32 true a b
  | .s64 a, b => .at64 a b.widen
  | a, .s64 b => .at64 a.widen b
  | a, b => .at32 false a.narrow b.narrow

/-- A comparison at one type. -/
def BinOp.compare (op : BinOp) (signed : Bool) {w : Nat} (a b : BitVec w) : Bool :=
  match op with
  | .eq => a == b
  | .ne => a != b
  | .lt => if signed then a.slt b else a.ult b
  | .gt => if signed then b.slt a else b.ult a
  | .le => if signed then a.sle b else a.ule b
  | .ge => if signed then b.sle a else b.ule a
  | _   => false

/-- An operator at one type, modulo its width; a division by zero gives zero. -/
def BinOp.compute (op : BinOp) (signed : Bool) {w : Nat} (a b : BitVec w) : BitVec w :=
  match op with
  | .add  => a + b
  | .sub  => a - b
  | .mul  => a * b
  | .div  => if signed then a.sdiv b else a / b
  | .mod  => if signed then a.srem b else a % b
  | .band => a &&& b
  | .bor  => a ||| b
  | .bxor => a ^^^ b
  | .shl  => a <<< (b.toNat % w)
  | .shr  => if signed then a.sshiftRight (b.toNat % w) else a >>> (b.toNat % w)
  | _     => 0

/-- A shift works at the type of its left operand; every other operator at the common type. -/
def BinOp.onAmp (op : BinOp) (a b : CVal) : CVal :=
  if op = .shl ∨ op = .shr then
    match a with
    | .int x => .int (op.compute true x b.narrow)
    | .u32 x => .u32 (op.compute false x b.narrow)
    | .s64 x => .s64 (op.compute true x b.widen)
  else
    match usual a b with
    | .at32 signed x y =>
        if op.comparison then .ofBool (op.compare signed x y)
        else if signed then .int (op.compute signed x y) else .u32 (op.compute signed x y)
    | .at64 x y =>
        if op.comparison then .ofBool (op.compare true x y) else .s64 (op.compute true x y)

/-! ### The generated C -/

/-- A C expression. -/
inductive AmpExpr where
  | int (value : Int)
  | var (name : String)
  | ifTmp (n : Nat)
  /-- The carveout's word `slot`. -/
  | ivar (slot : Nat)
  | binop (op : BinOp) (l r : AmpExpr)
  | land (l r : AmpExpr)
  | lor (l r : AmpExpr)
  | paren (e : AmpExpr)

/-- A line of C, or a block of them. -/
inductive AmpStmt where
  /-- `name = e;` -/
  | assign (name : String) (e : AmpExpr)
  /-- `word = (e);` -/
  | store (slot : Nat) (e : AmpExpr)
  /-- `word = word op (e);` -/
  | rmw (slot : Nat) (op : BinOp) (e : AmpExpr)
  /-- `__s64 _ifN = 0;` -/
  | declIf (n : Nat)
  /-- `_ifN = e;` -/
  | assignIf (n : Nat) (e : AmpExpr)
  /-- `(void)(e);` -/
  | discard (e : AmpExpr)
  /-- `amp_emit(e);` -/
  | emit (e : AmpExpr)
  /-- `return e;` or `return;` -/
  | ret (e : Option AmpExpr)
  /-- `if (c) { … } else { … }` -/
  | cond (c : AmpExpr) (t e : List AmpStmt)

/-- What a run shows: the branches it takes and what it emits. -/
inductive AmpEvent where
  | branch (taken : Bool)
  | emit (w : Word)
  deriving DecidableEq, Repr

/-- The state of a run. -/
structure AmpState where
  locals : String → Word
  tmps : Nat → Word
  words : Nat → BitVec 32
  trace : List AmpEvent

def AmpState.log (c : AmpState) (e : AmpEvent) : AmpState := { c with trace := c.trace ++ [e] }

/-- The value of an expression.  A literal that `int` cannot hold is a `long`; `-2147483648` is
the negation of one. -/
def AmpExpr.eval : AmpExpr → AmpState → CVal
  | .int v, _ =>
      if -2 ^ 31 < v ∧ v < 2 ^ 31 then .int (.ofInt 32 v) else .s64 (.ofInt 64 v)
  | .var x, c => .s64 (c.locals x)
  | .ifTmp n, c => .s64 (c.tmps n)
  | .ivar slot, c => .u32 (c.words slot)
  | .binop op l r, c => op.onAmp (l.eval c) (r.eval c)
  | .land l r, c => .ofBool ((l.eval c).isTrue && (r.eval c).isTrue)
  | .lor l r, c => .ofBool ((l.eval c).isTrue || (r.eval c).isTrue)
  | .paren e, c => e.eval c

mutual

/-- The execution of a line: it goes on, or returns from the function. -/
def AmpStmt.exec : AmpStmt → AmpState → Outcome (Option CVal) Unit × AmpState
  | .assign x e, c =>
      (.ok (), { c with locals := update c.locals x (e.eval c).widen })
  | .store slot e, c =>
      (.ok (), { c with words := update c.words slot (e.eval c).narrow })
  | .rmw slot op e, c =>
      let v := op.onAmp (.u32 (c.words slot)) (e.eval c)
      (.ok (), { c with words := update c.words slot v.narrow })
  | .declIf n, c => (.ok (), { c with tmps := update c.tmps n 0#64 })
  | .assignIf n e, c =>
      (.ok (), { c with tmps := update c.tmps n (e.eval c).widen })
  | .discard _, c => (.ok (), c)
  | .emit e, c => (.ok (), c.log (.emit (e.eval c).widen))
  | .ret e, c => (.exit (e.map (·.eval c)), c)
  | .cond p t e, c =>
      if (p.eval c).isTrue then execAmpAll t (c.log (.branch true))
      else execAmpAll e (c.log (.branch false))

/-- Lines in order. -/
def execAmpAll : List AmpStmt → AmpState → Outcome (Option CVal) Unit × AmpState
  | [], c      => (.ok (), c)
  | s :: ss, c => andThen (s.exec c) fun _ c => execAmpAll ss c

end

@[simp] theorem execAmpAll_nil (c : AmpState) : execAmpAll [] c = (.ok (), c) := by
  rw [execAmpAll]

@[simp] theorem execAmpAll_cons (s : AmpStmt) (ss : List AmpStmt) (c : AmpState) :
    execAmpAll (s :: ss) c = andThen (s.exec c) fun _ c => execAmpAll ss c := by
  rw [execAmpAll]

@[simp] theorem execAmpAll_append (ss ts : List AmpStmt) (c : AmpState) :
    execAmpAll (ss ++ ts) c = andThen (execAmpAll ss c) fun _ c => execAmpAll ts c := by
  induction ss generalizing c with
  | nil => simp
  | cons s ss ih => simp [ih, andThen_assoc]

/-! ### Lowering -/

/-- Why the code generator gives up on an AMP program. -/
inductive AmpReject where
  | noHandler
  | handlerParams
  | unsupported (name : String)
  | tooManyIvars
  | lowering (r : Reject)
  deriving DecidableEq, Repr

/-- The text of `die`, in method `method`. -/
def AmpReject.message (method : String) : AmpReject → String
  | .noHandler => "amp-m7: no eBPF-eligible handler method found"
  | .handlerParams => "amp-m7 handler takes no params (v0)"
  | .unsupported name =>
      "amp-m7 (--target amp-m7) does not support '" ++ name ++ "' in v0. " ++
      "Supported: ivar RMW (@x/@x += n), integer arithmetic, if/locals, spnl_emit, ktime_ns. " ++
      "Move this logic to the A55 side, or extend the amp helper set"
  | .tooManyIvars => "amp-m7: too many ivars (max 64)"
  | .lowering r => r.message method

/-- What lowering reads: the slots, and whether the method has no value. -/
structure AmpCtx where
  slot : String → Nat
  void : Bool

/-- Lines appended, the text of the value, and the last index used. -/
structure AmpOut where
  code : List AmpStmt
  text : Option AmpExpr
  fresh : Nat

/-- The text where a value is wanted. -/
def AmpOut.value (o : AmpOut) : AmpExpr := o.text.getD (.int 0)

/-- `cc_branch_block`. -/
def AmpOut.branch (o : AmpOut) (n : Nat) : List AmpStmt :=
  match o.text with
  | some t => o.code ++ [.assignIf n t]
  | none   => o.code

/-- What becomes of the text of a statement that is not the last. -/
def AmpOut.keepText (o : AmpOut) : List AmpStmt :=
  if o.code.isEmpty then
    match o.text with
    | some t => [.discard t]
    | none   => []
  else []

/-- The name of what is called. -/
def Callee.name : Callee → String
  | .method name | .builtin name => name

mutual

/-- `cc_lower_expr` and `cc_lower_stmt` with `g_amp` set. -/
@[simp] def lowerAmp (ctx : AmpCtx) : Pos → Node → Nat → Except AmpReject AmpOut
  | _, .int v, k  => .ok ⟨[], some (.int v), k⟩
  | _, .lvar x, k => .ok ⟨[], some (.var (safeDup x)), k⟩
  | _, .ivar x, k => .ok ⟨[], some (.ivar (ctx.slot x)), k⟩
  | _, .binop op l r, k => do
      let a ← lowerAmp ctx .expr l k
      let b ← lowerAmp ctx .expr r a.fresh
      .ok ⟨a.code ++ b.code, some (.binop op a.value b.value), b.fresh⟩
  | _, .and l r, k => do
      let a ← lowerAmp ctx .expr l k
      let b ← lowerAmp ctx .expr r a.fresh
      .ok ⟨a.code ++ b.code, some (.land a.value b.value), b.fresh⟩
  | _, .or l r, k => do
      let a ← lowerAmp ctx .expr l k
      let b ← lowerAmp ctx .expr r a.fresh
      .ok ⟨a.code ++ b.code, some (.lor a.value b.value), b.fresh⟩
  | _, .paren [], k => .ok ⟨[], some (.int 0), k⟩
  | _, .paren (n :: ns), k => do
      let o ← lowerAmpAll ctx (n :: ns) k
      .ok ⟨o.code, some (.paren o.value), o.fresh⟩
  | .expr, .lwrite .., _   => .error (.lowering (.notLowered "LocalVariableWriteNode"))
  | .expr, .iwrite .., _   => .error (.lowering (.notLowered "InstanceVariableWriteNode"))
  | .expr, .iopwrite .., _ =>
      .error (.lowering (.notLowered "InstanceVariableOperatorWriteNode"))
  | .expr, .ret .., _      => .error (.lowering (.notLowered "ReturnNode"))
  | .expr, .emit .., _     => .error (.lowering (.notBuiltin "spnl_emit"))
  | .stmt, .lwrite x v, k => do
      let o ← lowerAmp ctx .expr v k
      .ok ⟨o.code ++ [.assign (safeDup x) o.value], some (.var (safeDup x)), o.fresh⟩
  -- cc_emit_ivar_write
  | .stmt, .iwrite x v, k => do
      let o ← lowerAmp ctx .expr v k
      .ok ⟨o.code ++ [.store (ctx.slot x) o.value], some (.ivar (ctx.slot x)), o.fresh⟩
  -- cc_emit_ivar_rmw
  | .stmt, .iopwrite x op v, k =>
      if op = .add ∨ op = .sub ∨ op = .mul then do
        let o ← lowerAmp ctx .expr v k
        .ok ⟨o.code ++ [.rmw (ctx.slot x) op o.value], some (.ivar (ctx.slot x)), o.fresh⟩
      else .error (.lowering .ivarOperator)
  | .stmt, .ret [], k =>
      .ok ⟨[.ret (if ctx.void then none else some (.int 0))], none, k⟩
  | .stmt, .ret [v], k =>
      if ctx.void then .error (.lowering .returnValue)
      else do
        let o ← lowerAmp ctx .expr v k
        .ok ⟨o.code ++ [.ret (some o.value)], none, o.fresh⟩
  | .stmt, .ret (_ :: _ :: _), _ => .error (.lowering .returnTuple)
  -- cc_if_node
  | _, .ifNode p t e, k => do
      let c ← lowerAmp ctx .expr p k
      let n := c.fresh + 1
      let tb ← lowerAmpAll ctx t n
      let eb ← lowerAmpAll ctx e tb.fresh
      .ok ⟨c.code ++ [.declIf n, .cond c.value (tb.branch n) (eb.branch n)],
          some (.ifTmp n), eb.fresh⟩
  | .stmt, .emit v, k => do
      let o ← lowerAmp ctx .expr v k
      .ok ⟨o.code ++ [.emit o.value], some (.int 0), o.fresh⟩
  | _, .call _ f _, _ => .error (.unsupported f.name)
  | _, .times .., _   => .error (.unsupported "times")

/-- The `StatementsNode` of `cc_lower_stmt`. -/
@[simp] def lowerAmpAll (ctx : AmpCtx) : List Node → Nat → Except AmpReject AmpOut
  | [], k      => .ok ⟨[], none, k⟩
  | n :: ns, k =>
      match ns with
      | [] => lowerAmp ctx .stmt n k
      | _  => do
          let a ← lowerAmp ctx .stmt n k
          let b ← lowerAmpAll ctx ns a.fresh
          .ok ⟨a.code ++ a.keepText ++ b.code, b.text, b.fresh⟩

end

section

variable {ctx : AmpCtx} {pos : Pos} {k : Nat} {o : AmpOut} {op : BinOp} {l r v p n m : Node}
  {t e ns : List Node} {x : String}

/-- The code of both operands stands before the text. -/
theorem lowerAmp_binop (h : lowerAmp ctx pos (.binop op l r) k = .ok o) :
    ∃ a b, lowerAmp ctx .expr l k = .ok a ∧ lowerAmp ctx .expr r a.fresh = .ok b ∧
      o = ⟨a.code ++ b.code, some (.binop op a.value b.value), b.fresh⟩ := by
  rw [lowerAmp] at h
  exact bind_ok_last₂ h

theorem lowerAmp_paren (h : lowerAmp ctx pos (.paren (n :: ns)) k = .ok o) :
    ∃ a, lowerAmpAll ctx (n :: ns) k = .ok a ∧ o = ⟨a.code, some (.paren a.value), a.fresh⟩ := by
  rw [lowerAmp] at h
  exact bind_ok_last h

/-- A write is a line, and its text reads the variable back. -/
theorem lowerAmp_lwrite (h : lowerAmp ctx pos (.lwrite x v) k = .ok o) :
    ∃ a, lowerAmp ctx .expr v k = .ok a ∧
      o = ⟨a.code ++ [.assign (safeDup x) a.value], some (.var (safeDup x)), a.fresh⟩ := by
  cases pos with
  | expr => simp at h
  | stmt =>
      rw [lowerAmp] at h
      exact bind_ok_last h

theorem lowerAmp_iwrite (h : lowerAmp ctx pos (.iwrite x v) k = .ok o) :
    ∃ a, lowerAmp ctx .expr v k = .ok a ∧
      o = ⟨a.code ++ [.store (ctx.slot x) a.value], some (.ivar (ctx.slot x)), a.fresh⟩ := by
  cases pos with
  | expr => simp at h
  | stmt =>
      rw [lowerAmp] at h
      exact bind_ok_last h

/-- `op=` is one line that reads and writes the slot. -/
theorem lowerAmp_iopwrite (h : lowerAmp ctx pos (.iopwrite x op v) k = .ok o) :
    ∃ a, lowerAmp ctx .expr v k = .ok a ∧
      o = ⟨a.code ++ [.rmw (ctx.slot x) op a.value], some (.ivar (ctx.slot x)), a.fresh⟩ := by
  cases pos with
  | expr => simp at h
  | stmt =>
      rw [lowerAmp] at h
      split_ifs at h
      exact bind_ok_last h

/-- The text of an `emit` is `0`. -/
theorem lowerAmp_emit (h : lowerAmp ctx pos (.emit v) k = .ok o) :
    ∃ a, lowerAmp ctx .expr v k = .ok a ∧
      o = ⟨a.code ++ [.emit a.value], some (.int 0), a.fresh⟩ := by
  cases pos with
  | expr => simp at h
  | stmt =>
      rw [lowerAmp] at h
      exact bind_ok_last h

/-- The value of an `if` is a variable that both branches assign. -/
theorem lowerAmp_if (h : lowerAmp ctx pos (.ifNode p t e) k = .ok o) :
    ∃ a tb eb, lowerAmp ctx .expr p k = .ok a ∧ lowerAmpAll ctx t (a.fresh + 1) = .ok tb ∧
      lowerAmpAll ctx e tb.fresh = .ok eb ∧
      o = ⟨a.code ++ [.declIf (a.fresh + 1),
            .cond a.value (tb.branch (a.fresh + 1)) (eb.branch (a.fresh + 1))],
          some (.ifTmp (a.fresh + 1)), eb.fresh⟩ := by
  rw [lowerAmp] at h
  obtain ⟨a, ha, h⟩ := bind_ok h
  obtain ⟨tb, htb, h⟩ := bind_ok h
  obtain ⟨eb, heb, h⟩ := bind_ok h
  exact ⟨a, tb, eb, ha, htb, heb, (Except.ok.inj h).symm⟩

/-- Between statements the text of the earlier one is kept. -/
theorem lowerAmpAll_cons (h : lowerAmpAll ctx (n :: m :: ns) k = .ok o) :
    ∃ a b, lowerAmp ctx .stmt n k = .ok a ∧ lowerAmpAll ctx (m :: ns) a.fresh = .ok b ∧
      o = ⟨a.code ++ a.keepText ++ b.code, b.text, b.fresh⟩ := by
  exact bind_ok_last₂ h

end

mutual

/-- Indices only go up. -/
theorem lowerAmp_fresh {ctx : AmpCtx} : ∀ (n : Node) {pos : Pos} {k : Nat} {o : AmpOut},
    lowerAmp ctx pos n k = .ok o → k ≤ o.fresh
  | .int _, _, _, _, h | .lvar _, _, _, _, h | .ivar _, _, _, _, h | .paren [], _, _, _, h
  | .ret [], .stmt, _, _, h => by
      simp only [lowerAmp, Except.ok.injEq] at h
      exact h ▸ le_rfl
  | .binop _ l r, _, _, _, h => by
      obtain ⟨a, b, ha, hb, rfl⟩ := lowerAmp_binop h
      exact (lowerAmp_fresh l ha).trans (lowerAmp_fresh r hb :)
  | .and l r, _, _, _, h | .or l r, _, _, _, h => by
      simp only [lowerAmp] at h
      obtain ⟨a, b, ha, hb, rfl⟩ := bind_ok_last₂ h
      exact (lowerAmp_fresh l ha).trans (lowerAmp_fresh r hb :)
  | .paren (n :: ns), _, _, _, h => by
      obtain ⟨a, ha, rfl⟩ := lowerAmp_paren h
      exact (lowerAmpAll_fresh (n :: ns) ha :)
  | .lwrite _ v, _, _, _, h => by
      obtain ⟨a, ha, rfl⟩ := lowerAmp_lwrite h
      exact (lowerAmp_fresh v ha :)
  | .iwrite _ v, _, _, _, h => by
      obtain ⟨a, ha, rfl⟩ := lowerAmp_iwrite h
      exact (lowerAmp_fresh v ha :)
  | .iopwrite _ _ v, _, _, _, h => by
      obtain ⟨a, ha, rfl⟩ := lowerAmp_iopwrite h
      exact (lowerAmp_fresh v ha :)
  | .emit v, _, _, _, h => by
      obtain ⟨a, ha, rfl⟩ := lowerAmp_emit h
      exact (lowerAmp_fresh v ha :)
  | .ret [v], .stmt, _, _, h => by
      simp only [lowerAmp] at h
      split_ifs at h
      obtain ⟨a, ha, rfl⟩ := bind_ok_last h
      exact (lowerAmp_fresh v ha :)
  | .ifNode p t e, _, k, _, h => by
      obtain ⟨a, tb, eb, ha, htb, heb, rfl⟩ := lowerAmp_if h
      have hp := lowerAmp_fresh p ha
      have ht := lowerAmpAll_fresh t htb
      have he := lowerAmpAll_fresh e heb
      show k ≤ eb.fresh
      omega
  | .ret _, .expr, _, _, h | .ret (_ :: _ :: _), .stmt, _, _, h | .call .., _, _, _, h
  | .times .., _, _, _, h => by simp [lowerAmp] at h

theorem lowerAmpAll_fresh {ctx : AmpCtx} : ∀ (ns : List Node) {k : Nat} {o : AmpOut},
    lowerAmpAll ctx ns k = .ok o → k ≤ o.fresh
  | [], _, _, h => by
      simp only [lowerAmpAll, Except.ok.injEq] at h
      exact h ▸ le_rfl
  | [n], _, _, h => lowerAmp_fresh n h
  | n :: m :: ns, _, _, h => by
      obtain ⟨a, b, ha, hb, rfl⟩ := lowerAmpAll_cons h
      exact (lowerAmp_fresh n ha).trans (lowerAmpAll_fresh (m :: ns) hb :)

end

/-! ### Programs -/

mutual

/-- The instance variables of a node, in the order in which `cc_ivar_map` meets them. -/
def ivarUses : Node → List String
  | .int _ | .lvar _ => []
  | .ivar x => [x]
  | .binop _ l r | .and l r | .or l r => ivarUses l ++ ivarUses r
  | .paren body => ivarUsesAll body
  | .lwrite _ v | .emit v => ivarUses v
  | .iwrite x v | .iopwrite x _ v => ivarUses v ++ [x]
  | .ret args | .call _ _ args => ivarUsesAll args
  | .ifNode p t e => ivarUses p ++ ivarUsesAll t ++ ivarUsesAll e
  | .times r _ _ body => ivarUses r ++ ivarUsesAll body

def ivarUsesAll : List Node → List String
  | []      => []
  | n :: ns => ivarUses n ++ ivarUsesAll ns

end

/-- `g_amp_ivars` once every handler is lowered. -/
def ampIvars (ms : List Method) : List String :=
  (ms.flatMap fun m => ivarUsesAll m.body).eraseDups

/-- `amp_ivar_slot`. -/
def ampIvarSlot (ms : List Method) (x : String) : Nat := (ampIvars ms).idxOf x

/-- The calls that `amp_scan_supported` refuses. -/
def ampUnsupported : Node → List String
  | .call _ f _ => [f.name]
  | .times .. => ["times"]
  | _ => []

/-- A handler of `amp_codegen_program`: the checks, and the body of the C function. -/
def ampHandler (ms : List Method) (m : Method) : Except AmpReject (List AmpStmt) :=
  if m.params ≠ [] then .error .handlerParams
  else
    match collectAll ampUnsupported m.body with
    | name :: _ => .error (.unsupported name)
    | [] => do
        let o ← lowerAmpAll ⟨ampIvarSlot ms, m.void⟩ m.body 0
        .ok (m.declared.map (fun s => .assign s (.int 0)) ++ o.code ++
          [.ret (some (if m.void then .int 0 else o.value))])

/-- `amp_codegen_program`: the function of each handler. -/
def ampCodegen (ms : List Method) : Except AmpReject (List (List AmpStmt)) :=
  if ms = [] then .error .noHandler
  else if 64 < (ampIvars ms).length then .error .tooManyIvars
  else ms.mapM (ampHandler ms)

/-- A call of a handler's function, from what the carveout and the stack hold. -/
def callAmp (code : List AmpStmt) (words : Nat → BitVec 32) (locals : String → Word)
    (tmps : Nat → Word) : AmpState :=
  (execAmpAll code ⟨locals, tmps, words, []⟩).2

end SpinelEbpf.Codegen

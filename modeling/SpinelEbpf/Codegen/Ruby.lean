import SpinelEbpf.Codegen.Ast
import SpinelEbpf.Support.Outcome

/-!
# Codegen — What the source means

Ruby's evaluation of a body, left to right, with integers taken modulo 2^64: a value that is
missing (`nil`) is zero where a number is wanted.  A run leaves a trace of its effects in order:
assignments, emitted values, calls, and the bounds of the loops it enters.

What surrounds a method is a `Host`: what a callee does, at which sites the call is passed over
once its arguments are evaluated, and how often a loop runs for a bound.  In Ruby (`Host.ruby`) no
call is passed over and `n.times` makes `n` rounds.
-/

namespace SpinelEbpf.Codegen
open Outcome

abbrev Word := BitVec 64

/-- A Ruby value. -/
inductive Value where
  | int (w : Word)
  | bool (b : Bool)
  | nil
  deriving DecidableEq, Repr

/-- The value as a 64-bit integer. -/
def Value.word : Value → Word
  | .int w  => w
  | .bool b => if b then 1#64 else 0#64
  | .nil    => 0#64

/-- Everything but `nil` and `false` is true, zero included. -/
def Value.truthy : Value → Bool
  | .int _  => true
  | .bool b => b
  | .nil    => false

/-- An effect. -/
inductive Event where
  | call (site : Nat) (args : List Word)
  | emit (w : Word)
  | setLocal (name : String) (w : Word)
  | setIvar (name : String) (w : Word)
  | loop (bound : Word)
  deriving DecidableEq, Repr

/-- A number, or `nil`, which reads as zero. -/
def Value.numeric : Value → Bool
  | .bool _ => false
  | _       => true

/-- An operator on integers modulo 2^64; `none` when it raises. -/
def BinOp.rubyInt (op : BinOp) (a b : Word) : Option Value :=
  match op with
  | .add  => some (.int (a + b))
  | .sub  => some (.int (a - b))
  | .mul  => some (.int (a * b))
  | .div  => if b = 0#64 then none else some (.int (.ofInt 64 (a.toInt.fdiv b.toInt)))
  | .mod  => if b = 0#64 then none else some (.int (.ofInt 64 (a.toInt.fmod b.toInt)))
  | .eq   => some (.bool (a == b))
  | .ne   => some (.bool (a != b))
  | .lt   => some (.bool (a.slt b))
  | .gt   => some (.bool (b.slt a))
  | .le   => some (.bool (a.sle b))
  | .ge   => some (.bool (b.sle a))
  | .band => some (.int (a &&& b))
  | .bor  => some (.int (a ||| b))
  | .bxor => some (.int (a ^^^ b))
  -- a negative count shifts the other way
  | .shl  => some (.int (if b.msb then a.sshiftRight (-b).toNat else a <<< b.toNat))
  | .shr  => some (.int (if b.msb then a <<< (-b).toNat else a.sshiftRight b.toNat))

/-- The operators of `true` and `false`. -/
def BinOp.rubyBool (op : BinOp) (a : Bool) (b : Value) : Option Value :=
  match op with
  | .eq   => some (.bool (b == .bool a))
  | .ne   => some (.bool (b != .bool a))
  | .band => some (.bool (a && b.truthy))
  | .bor  => some (.bool (a || b.truthy))
  | .bxor => some (.bool (a != b.truthy))
  | _     => none

/-- An operator; an integer is equal to no boolean and takes none for an argument otherwise. -/
def BinOp.ruby (op : BinOp) (a b : Value) : Option Value :=
  match a, b with
  | .bool a, b => op.rubyBool a b
  | a, .bool _ =>
      match op with
      | .eq => some (.bool (a == b))
      | .ne => some (.bool (a != b))
      | _   => none
  | a, b => op.rubyInt a.word b.word

/-- The state of a run. -/
structure RState where
  locals : String → Value
  ivars : String → Value
  trace : List Event

namespace RState

/-- The effect `e` happens. -/
@[simps -fullyApplied]
def log (σ : RState) (e : Event) : RState := { σ with trace := σ.trace ++ [e] }

@[simps! -fullyApplied]
def setLocal (σ : RState) (x : String) (v : Value) : RState :=
  { σ with locals := Function.update σ.locals x v }.log (.setLocal x v.word)

@[simps! -fullyApplied]
def setIvar (σ : RState) (x : String) (v : Value) : RState :=
  { σ with ivars := Function.update σ.ivars x v }.log (.setIvar x v.word)

/-- A block starts: its parameter is bound and its own variables are new. -/
@[simps -fullyApplied ivars trace]
def enterBlock (σ : RState) (param : String) (i : Nat) (own : List String) : RState :=
  { σ with locals := fun x =>
      if x = param then .int (.ofNat 64 i) else if x ∈ own then .nil else σ.locals x }

/-- A block ends: what its names meant outside, they mean again. -/
@[simps -fullyApplied ivars trace]
def leaveBlock (σ outside : RState) (param : String) (own : List String) : RState :=
  { σ with locals := fun x => if x = param ∨ x ∈ own then outside.locals x else σ.locals x }

end RState

/-- Why a run of a body stops before its end. -/
inductive RExit where
  | ret (v : Value)
  | raise

/-- What a callee does to the instance variables, and its value. -/
abbrev Behaviour := Callee → List Word → (String → Value) → Value × (String → Value)

/-- What surrounds a method. -/
structure Host where
  callee : Behaviour
  omits : Nat → Bool
  rounds : Word → Nat

/-- Ruby. -/
def Host.ruby (callee : Behaviour) : Host := ⟨callee, fun _ => false, fun n => n.toInt.toNat⟩

/-- The value of an operator, or the exception it raises. -/
def applyOp (op : BinOp) (a b : Value) (k : Value → RState → Outcome RExit Value × RState)
    (σ : RState) : Outcome RExit Value × RState :=
  match op.ruby a b with
  | some v => k v σ
  | none   => (.exit .raise, σ)

/-- One round of a block. -/
def runBlock (body : RState → Outcome RExit Value × RState) (param : String) (own : List String)
    (i : Nat) (σ : RState) : Outcome RExit Unit × RState :=
  match body (σ.enterBlock param i own) with
  | (.ok _, σ')   => (.ok (), σ'.leaveBlock σ param own)
  | (.exit r, σ') => (.exit r, σ'.leaveBlock σ param own)

mutual

/-- The evaluation of a node. -/
@[simp] def eval (h : Host) : Node → RState → Outcome RExit Value × RState
  | .int v, σ  => (.ok (.int (.ofInt 64 v)), σ)
  | .lvar x, σ => (.ok (σ.locals x), σ)
  | .ivar x, σ => (.ok (σ.ivars x), σ)
  | .binop op l r, σ =>
      andThen (eval h l σ) fun a σ =>
      andThen (eval h r σ) fun b σ =>
      applyOp op a b (fun v σ => (.ok v, σ)) σ
  | .and l r, σ =>
      andThen (eval h l σ) fun a σ => if a.truthy then eval h r σ else (.ok a, σ)
  | .or l r, σ =>
      andThen (eval h l σ) fun a σ => if a.truthy then (.ok a, σ) else eval h r σ
  | .paren body, σ => evalAll h body σ
  | .lwrite x v, σ => andThen (eval h v σ) fun a σ => (.ok a, σ.setLocal x a)
  | .iwrite x v, σ => andThen (eval h v σ) fun a σ => (.ok a, σ.setIvar x a)
  -- the variable is read before the right-hand side
  | .iopwrite x op v, σ =>
      andThen (eval h v σ) fun b σ' =>
      applyOp op (σ.ivars x) b (fun v σ => (.ok v, σ.setIvar x v)) σ'
  | .ret args, σ => andThen (evalAll h args σ) fun a σ => (.exit (.ret a), σ)
  | .ifNode p t e, σ =>
      andThen (eval h p σ) fun a σ => if a.truthy then evalAll h t σ else evalAll h e σ
  | .emit v, σ => andThen (eval h v σ) fun a σ => (.ok .nil, σ.log (.emit a.word))
  | .call site f args, σ =>
      andThen (evalArgs h args σ) fun as σ =>
      if h.omits site then (.ok .nil, σ)
      else (.ok (h.callee f as σ.ivars).1,
        { σ with ivars := (h.callee f as σ.ivars).2 }.log (.call site as))
  | .times r param own body, σ =>
      andThen (eval h r σ) fun n σ =>
      andThen (repeatFrom (runBlock (evalAll h body) param own) (h.rounds n.word) 0
        (σ.log (.loop n.word))) fun _ σ => (.ok n, σ)

/-- Statements in order; the value is that of the last. -/
@[simp] def evalAll (h : Host) : List Node → RState → Outcome RExit Value × RState
  | [], σ => (.ok .nil, σ)
  | n :: ns, σ =>
      match ns with
      | [] => eval h n σ
      | _  => andThen (eval h n σ) fun _ σ => evalAll h ns σ

/-- Arguments, left to right. -/
@[simp] def evalArgs (h : Host) : List Node → RState → Outcome RExit (List Word) × RState
  | [], σ      => (.ok [], σ)
  | n :: ns, σ =>
      andThen (eval h n σ) fun a σ =>
      andThen (evalArgs h ns σ) fun as σ => (.ok (a.word :: as), σ)

end

/-- An operator that does not raise. -/
theorem eval_binop {h : Host} {op : BinOp} {l r : Node} {σ σ₁ σ₂ : RState} {a b v : Value}
    (hl : eval h l σ = (.ok a, σ₁)) (hr : eval h r σ₁ = (.ok b, σ₂)) (hv : op.ruby a b = some v) :
    eval h (.binop op l r) σ = (.ok v, σ₂) := by
  rw [eval, hl, andThen_ok, hr, andThen_ok, applyOp, hv]

/-- The parameters bound to the arguments. -/
def bindParams (params : List String) (args : List Word) (x : String) : Value :=
  match (params.zip args).lookup x with
  | some w => .int w
  | none   => .nil

/-- A call of a method: the value, if it does not raise, and the state after. -/
def Method.call (h : Host) (m : Method) (args : List Word) (ivars : String → Value) :
    Option Value × RState :=
  match evalAll h m.body ⟨bindParams m.params args, ivars, []⟩ with
  | (.ok v, σ)          => (some v, σ)
  | (.exit (.ret v), σ) => (some v, σ)
  | (.exit .raise, σ)   => (none, σ)

end SpinelEbpf.Codegen

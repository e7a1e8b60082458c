import Mathlib

/-!
# Codegen — Source

The nodes of the Ruby subset that the code generator lowers, and the names it makes of the
source's.  A list of nodes is a `StatementsNode`; an `elsif` is an `if` that is all of its
`else`.  A call carries its *site*, the node's number in the source.
-/

namespace SpinelEbpf.Codegen

/-- The method names that `cc_is_binary_op` takes for operators. -/
inductive BinOp where
  | add | sub | mul | div | mod
  | eq | ne | lt | gt | le | ge
  | band | bor | bxor | shl | shr
  deriving DecidableEq, Repr

/-- What a call is made to: a method of the program, or a builtin with an effect that is lowered
as an expression. -/
inductive Callee where
  | method (name : String)
  | builtin (name : String)
  deriving DecidableEq, Repr

/-- A node of the source. -/
inductive Node where
  /-- `IntegerNode`. -/
  | int (value : Int)
  /-- `LocalVariableReadNode`. -/
  | lvar (name : String)
  /-- `InstanceVariableReadNode`. -/
  | ivar (name : String)
  /-- `CallNode` of an operator. -/
  | binop (op : BinOp) (receiver argument : Node)
  | and (left right : Node)
  | or (left right : Node)
  /-- `ParenthesesNode`. -/
  | paren (body : List Node)
  /-- `LocalVariableWriteNode`. -/
  | lwrite (name : String) (value : Node)
  /-- `InstanceVariableWriteNode`. -/
  | iwrite (name : String) (value : Node)
  /-- `InstanceVariableOperatorWriteNode`. -/
  | iopwrite (name : String) (op : BinOp) (value : Node)
  /-- `ReturnNode`. -/
  | ret (arguments : List Node)
  /-- `IfNode`. -/
  | ifNode (predicate : Node) (statements subsequent : List Node)
  /-- `CallNode` of `spnl_emit`. -/
  | emit (argument : Node)
  /-- `CallNode` of a callee. -/
  | call (site : Nat) (callee : Callee) (arguments : List Node)
  /-- `CallNode` of `times`; `locals` are the variables of the block itself. -/
  | times (receiver : Node) (param : String) (locals : List String) (body : List Node)

/-- A method: its parameters, its body, and whether its inferred type gives it no value. -/
structure Method where
  params : List String
  body : List Node
  void : Bool

/-! ### Names -/

/-- The words of `cc_is_c_keyword`. -/
def cKeywords : List String :=
  ["auto", "break", "case", "char", "const", "continue", "default", "do", "double", "else", "enum",
   "extern", "float", "for", "goto", "if", "inline", "int", "long", "register", "restrict",
   "return", "short", "signed", "sizeof", "static", "struct", "switch", "typedef", "union",
   "unsigned", "void", "volatile", "while", "_Bool", "_Complex", "_Imaginary", "_Atomic",
   "_Static_assert", "_Thread_local", "_Alignas", "_Alignof", "_Generic", "_Noreturn"]

/-- `cc_safe_dup`: a C keyword gets an underscore. -/
def safeDup (name : String) : String := if name ∈ cKeywords then name ++ "_" else name

/-- `cc_is_capture`, of a list of captures; none outside a loop callback. -/
abbrev Captures := List String

/-! ### Walking a tree -/

section

variable {α : Type} (f : Node → List α)

mutual

/-- What `f` finds at the nodes of a tree, in source order. -/
def collect : Node → List α
  | .int v => f (.int v)
  | .lvar x => f (.lvar x)
  | .ivar x => f (.ivar x)
  | .binop op l r => f (.binop op l r) ++ collect l ++ collect r
  | .and l r => f (.and l r) ++ collect l ++ collect r
  | .or l r => f (.or l r) ++ collect l ++ collect r
  | .paren body => f (.paren body) ++ collectAll body
  | .lwrite x v => f (.lwrite x v) ++ collect v
  | .iwrite x v => f (.iwrite x v) ++ collect v
  | .iopwrite x op v => f (.iopwrite x op v) ++ collect v
  | .ret args => f (.ret args) ++ collectAll args
  | .ifNode p t e => f (.ifNode p t e) ++ collect p ++ collectAll t ++ collectAll e
  | .emit v => f (.emit v) ++ collect v
  | .call site g args => f (.call site g args) ++ collectAll args
  | .times r i own body => f (.times r i own body) ++ collect r ++ collectAll body

/-- The same, over a list of nodes. -/
def collectAll : List Node → List α
  | []      => []
  | n :: ns => collect n ++ collectAll ns

end

end

/-- The locals a node writes. -/
def localWrite : Node → List String
  | .lwrite x _ => [x]
  | _ => []

/-- The instance variables a node writes. -/
def ivarWrite : Node → List String
  | .iwrite x _ | .iopwrite x _ _ => [x]
  | _ => []

/-- The locals a node reads or writes. -/
def localRef : Node → List String
  | .lvar x | .lwrite x _ => [x]
  | _ => []

/-- The call sites of a node. -/
def callSite : Node → List Nat
  | .call site _ _ => [site]
  | _ => []

/-- `cc_collect_locals`: the C names of the locals written. -/
def collectLocals (body : List Node) : List String := (collectAll localWrite body).map safeDup

/-- `cc_collect_capture_refs`: the C names of the locals read or written. -/
def collectRefs (body : List Node) : List String := (collectAll localRef body).map safeDup

end SpinelEbpf.Codegen

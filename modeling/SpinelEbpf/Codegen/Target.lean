import SpinelEbpf.Codegen.Ruby

/-!
# Codegen — What the generated C means

The C that the code generator emits for a method, as trees: expressions (`CExpr`) and lines
(`CStmt`).  Integer operations are taken at 64 bits.

The map of an instance variable holds one value; a map without an entry reads as zero.  What
`(_pN ? *_pN : 0)` reads depends on the map's type (`Slot`).  The maps the code generator declares
are hash maps: an update puts a new element in place of the old one, and a pointer looked up before
still reads the old.  In a map with its entries in place it would read what the map holds now.

A `bpf_loop` callback is a function of its own.  Its frame is new, and it reaches the locals of
the method through the pointers of its capture struct; here it is shown where it is called.  Its
temporaries, and the generated ones in general, are apart from the user's names.
-/

namespace SpinelEbpf.Codegen
open Function Outcome

/-- A C variable: a name of the source, `_vN` or `_ifN`. -/
inductive CVar where
  | user (name : String)
  | val (n : Nat)
  | ifTmp (n : Nat)
  deriving DecidableEq, Repr

/-- A C expression. -/
inductive CExpr where
  | int (value : Int)
  | var (x : CVar)
  /-- `(*_lc->name)`. -/
  | captured (name : String)
  /-- `(_pN ? *_pN : 0)`. -/
  | load (p : Nat)
  | binop (op : BinOp) (l r : CExpr)
  | land (l r : CExpr)
  | lor (l r : CExpr)
  | paren (e : CExpr)
  | call (site : Nat) (function : String) (args : List CExpr)

/-- A line of C, or a block of them. -/
inductive CStmt where
  /-- `__s64 x = e;` -/
  | decl (x : CVar) (e : CExpr)
  /-- `name = e;` -/
  | assign (name : String) (e : CExpr)
  /-- `*_lc->name = e;` -/
  | assignCaptured (name : String) (e : CExpr)
  /-- `_ifN = e;` -/
  | assignIf (n : Nat) (e : CExpr)
  /-- `__u32 _kN = 0;` -/
  | key (k : Nat)
  /-- `__s64 *_pN = bpf_map_lookup_elem(&map, &_kN);` -/
  | lookup (p : Nat) (map : String) (k : Nat)
  /-- `bpf_map_update_elem(&map, &_kN, &_vN, BPF_ANY);` -/
  | update (map : String) (k v : Nat)
  /-- `(void)(e);` -/
  | discard (e : CExpr)
  /-- The block that reserves, fills and submits a record. -/
  | emit (n : Nat) (e : CExpr)
  /-- `return e;` or `return;` -/
  | ret (e : Option CExpr)
  /-- `if (c) { … } else { … }` -/
  | cond (c : CExpr) (t e : List CStmt)
  /-- The loop over `bpf_iter_num_next`. -/
  | iter (param : String) (n : Int) (body : List CStmt)
  /-- `bpf_loop(bound, &callback, …, 0);` with the callback's lines. -/
  | bpfLoop (bound : CExpr) (param : String) (body : List CStmt)

/-- An operator at 64 bits; shift counts are masked and a division by zero gives zero. -/
def BinOp.c (op : BinOp) (a b : Word) : Word :=
  match op with
  | .add  => a + b
  | .sub  => a - b
  | .mul  => a * b
  | .div  => a.sdiv b
  | .mod  => a.srem b
  | .eq   => if a == b then 1#64 else 0#64
  | .ne   => if a != b then 1#64 else 0#64
  | .lt   => if a.slt b then 1#64 else 0#64
  | .gt   => if b.slt a then 1#64 else 0#64
  | .le   => if a.sle b then 1#64 else 0#64
  | .ge   => if b.sle a then 1#64 else 0#64
  | .band => a &&& b
  | .bor  => a ||| b
  | .bxor => a ^^^ b
  | .shl  => a <<< (b.toNat % 64)
  | .shr  => a.sshiftRight (b.toNat % 64)

/-- Where a map keeps a value: in place, or in an element that an update replaces. -/
inductive Slot where
  | array
  | hash
  deriving DecidableEq, Repr

/-- What a lookup has found: the map, and the value in its element. -/
structure Ptr where
  map : String
  found : Word

/-- The state of a run of C: the frame, the frame behind the capture struct, what each pointer was
looked up as, the maps, their type, and the effects so far. -/
structure CState where
  vars : CVar → Word
  caps : String → Word
  ptrs : Nat → Ptr
  maps : String → Word
  slot : Slot
  trace : List Event

namespace CState

/-- The effect `e` happens. -/
@[simps -fullyApplied]
def log (c : CState) (e : Event) : CState := { c with trace := c.trace ++ [e] }

@[simps -fullyApplied]
def setVar (c : CState) (x : CVar) (w : Word) : CState :=
  { c with vars := update c.vars x w }

/-- The state after `_pN` was looked up in a map. -/
def setPtr (c : CState) (p : Nat) (map : String) : CState :=
  { c with ptrs := update c.ptrs p ⟨map, c.maps map⟩ }

/-- What is read through `_pN`. -/
def deref (c : CState) (p : Nat) : Word :=
  match c.slot with
  | .array => c.maps (c.ptrs p).map
  | .hash  => (c.ptrs p).found

/-- The frame of a loop callback. -/
def enterCallback (c : CState) (param : String) (i : Nat) : CState :=
  { c with
    vars := update (fun _ => 0#64) (.user param) (.ofNat 64 i)
    caps := fun s => c.vars (.user s)
    ptrs := fun _ => ⟨"", 0#64⟩ }

/-- Back in the caller's frame, with what was written through the captures. -/
def leaveCallback (c caller : CState) : CState :=
  { c with
    vars := fun
      | .user s => c.caps s
      | x       => caller.vars x
    caps := caller.caps
    ptrs := caller.ptrs }

/-- A pointer just looked up reads what the map holds, whatever its type. -/
theorem deref_setPtr (c : CState) (p : Nat) (map : String) : (c.setPtr p map).deref p = c.maps map := by
  simp only [deref, setPtr, update_self]
  cases c.slot <;> rfl

end CState

/-- What the C functions called do. -/
abbrev CHost := String → List Word → (String → Word) → Word × (String → Word)

/-- The largest bound `bpf_loop` and the number iterator accept. -/
def bpfMaxLoops : Nat := 2 ^ 23

/-- How often the body of a loop runs: the bound is a 32-bit number, and one over the largest is
refused. -/
def bpfLoops (bound : Word) : Nat :=
  let n := bound.toNat % 2 ^ 32
  if n ≤ bpfMaxLoops then n else 0

mutual

/-- The evaluation of an expression. -/
@[simp] def CExpr.eval (h : CHost) : CExpr → CState → Word × CState
  | .int v, c      => (.ofInt 64 v, c)
  | .var x, c      => (c.vars x, c)
  | .captured s, c => (c.caps s, c)
  | .load p, c     => (c.deref p, c)
  | .binop op l r, c =>
      let a := l.eval h c
      let b := r.eval h a.2
      (op.c a.1 b.1, b.2)
  | .land l r, c =>
      let a := l.eval h c
      if a.1 = 0#64 then (0#64, a.2)
      else
        let b := r.eval h a.2
        (if b.1 = 0#64 then 0#64 else 1#64, b.2)
  | .lor l r, c =>
      let a := l.eval h c
      if a.1 = 0#64 then
        let b := r.eval h a.2
        (if b.1 = 0#64 then 0#64 else 1#64, b.2)
      else (1#64, a.2)
  | .paren e, c => e.eval h c
  | .call site f args, c =>
      let as := evalCArgs h args c
      let r := h f as.1 as.2.maps
      (r.1, { as.2 with maps := r.2 }.log (.call site as.1))

@[simp] def evalCArgs (h : CHost) : List CExpr → CState → List Word × CState
  | [], c      => ([], c)
  | e :: es, c =>
      let a := e.eval h c
      let as := evalCArgs h es a.2
      (a.1 :: as.1, as.2)

end

/-- One round of the number iterator's loop, whose parameter is local to it. -/
def runIter (body : CState → Outcome (Option Word) Unit × CState) (param : String) (i : Nat)
    (c : CState) : Outcome (Option Word) Unit × CState :=
  match body (c.setVar (.user param) (.ofNat 64 i)) with
  | (r, c') => (r, c'.setVar (.user param) (c.vars (.user param)))

/-- One call of a loop callback; it ends with `return 0;`, and another value stops the loop. -/
def runCallback (body : CState → Outcome (Option Word) Unit × CState) (param : String) (i : Nat)
    (c : CState) : Outcome Unit Unit × CState :=
  match body (c.enterCallback param i) with
  | (.ok _, c') => (.ok (), c'.leaveCallback c)
  | (.exit none, c') => (.ok (), c'.leaveCallback c)
  | (.exit (some w), c') => (if w = 0#64 then .ok () else .exit (), c'.leaveCallback c)

mutual

/-- The execution of a line: it goes on, or returns from the function. -/
@[simp] def CStmt.exec (h : CHost) : CStmt → CState → Outcome (Option Word) Unit × CState
  | .decl x e, c =>
      let r := e.eval h c
      (.ok (), r.2.setVar x r.1)
  | .assign s e, c =>
      let r := e.eval h c
      (.ok (), (r.2.setVar (.user s) r.1).log (.setLocal s r.1))
  | .assignCaptured s e, c =>
      let r := e.eval h c
      (.ok (), { r.2 with caps := update r.2.caps s r.1 }.log (.setLocal s r.1))
  | .assignIf n e, c =>
      let r := e.eval h c
      (.ok (), r.2.setVar (.ifTmp n) r.1)
  | .key _, c => (.ok (), c)
  | .lookup p map _, c => (.ok (), c.setPtr p map)
  | .update map _ v, c =>
      (.ok (), { c with maps := update c.maps map (c.vars (.val v)) }.log
        (.setIvar map (c.vars (.val v))))
  | .discard e, c => (.ok (), (e.eval h c).2)
  | .emit _ e, c =>
      let r := e.eval h c
      (.ok (), r.2.log (.emit r.1))
  | .ret none, c => (.exit none, c)
  | .ret (some e), c =>
      let r := e.eval h c
      (.exit (some r.1), r.2)
  | .cond p t e, c =>
      let r := p.eval h c
      if r.1 = 0#64 then execAll h e r.2 else execAll h t r.2
  | .iter param n body, c =>
      repeatFrom (runIter (execAll h body) param) (bpfLoops (.ofInt 64 n)) 0
        (c.log (.loop (.ofInt 64 n)))
  | .bpfLoop bound param body, c =>
      let r := bound.eval h c
      (.ok (), (repeatFrom (runCallback (execAll h body) param) (bpfLoops r.1) 0
        (r.2.log (.loop r.1))).2)

/-- Lines in order. -/
def execAll (h : CHost) : List CStmt → CState → Outcome (Option Word) Unit × CState
  | [], c      => (.ok (), c)
  | s :: ss, c => andThen (s.exec h c) fun _ c => execAll h ss c

end

@[simp] theorem execAll_nil (h : CHost) (c : CState) : execAll h [] c = (.ok (), c) := by
  rw [execAll]

@[simp] theorem execAll_cons (h : CHost) (s : CStmt) (ss : List CStmt) (c : CState) :
    execAll h (s :: ss) c = andThen (s.exec h c) fun _ c => execAll h ss c := by
  rw [execAll]

/-- Lines run in their order. -/
@[simp] theorem execAll_append (h : CHost) (ss ts : List CStmt) (c : CState) :
    execAll h (ss ++ ts) c = andThen (execAll h ss c) fun _ c => execAll h ts c := by
  induction ss generalizing c with
  | nil => simp
  | cons s ss ih => simp [ih, andThen_assoc]

end SpinelEbpf.Codegen

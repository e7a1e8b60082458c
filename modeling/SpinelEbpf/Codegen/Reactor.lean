import SpinelEbpf.Codegen.Ast

/-!
# Codegen — event handlers

A module that includes `BPF::EventLoop` declares handlers, `on :kprobe, "do_exit" do … end`.
`cc_synthesize_reactor` turns each into a method whose name tells a later pass where to attach it: a
fixed name for kinds that attach once, the kind and its targets for most others, and the kind and a
number for those of the user-space probes.  A list of symbols in place of a target makes one method
for all of them (`cc_synthesize_multi`).

A module may be opened several times.  The pass takes each opening for a module of its own: it wants
the mixin in the opening itself, numbers the handlers of one opening, and collects at most 64 of
them, at the top level only.  Names have no module in them.  `ReactorHandlers` says which handlers
get lost and which names meet.
-/

namespace SpinelEbpf.Codegen.Reactor

/-! ### The program -/

/-- The value of a keyword argument. -/
inductive KwValue where
  | symbol (value : String)
  | integer (n : Int)
  /-- A call, with its receiver if that is an integer literal. -/
  | call (name : String) (receiver : Option Int)
  | other (type : Option String)
  deriving DecidableEq, Repr

/-- An argument of an `on` call; an element of an array is its content if it is a string literal. -/
inductive Arg where
  | symbol (value : String)
  | string (content : String)
  | array (elements : List (Option String))
  | keywords (pairs : List (Option String × KwValue))
  | other
  deriving DecidableEq, Repr

/-- The block of an `on` call: the names of its required parameters, and the id of its body. -/
structure Block where
  params : List (Option String)
  body : Option Nat
  deriving DecidableEq, Repr

structure OnCall where
  args : List Arg
  block : Option Block
  deriving DecidableEq, Repr

/-- A statement.  A module has its constant path as it is written; `scope` is any other node with
statements in it, such as a class, with the path it adds to the modules inside it. -/
inductive Stmt where
  | on (call : OnCall)
  /-- `include` or `extend`, with the constant paths of its arguments. -/
  | mixin (paths : List String)
  | module (path : List String) (body : List Stmt)
  | scope (path : List String) (body : List Stmt)
  | other

/-- The `on` calls of a module's body. -/
def onCalls (body : List Stmt) : List OnCall :=
  body.filterMap fun
    | .on c => some c
    | _     => none

/-- The body mixes the event loop in. -/
def eventLoop (body : List Stmt) : Bool :=
  body.any fun
    | .mixin paths => paths.contains "BPF::EventLoop"
    | _ => false

/-! ### Kinds -/

structure ReactorKind where
  kind : String
  pre : String
  joiner : String
  arity : Nat
  react : Bool
  deriving DecidableEq, Repr

/-- The table of `cc_reactor_kind`. -/
def reactorKinds : List ReactorKind :=
  [⟨"xdp", "xdp__main", "", 0, false⟩, ⟨"sock_ops", "sock_ops__main", "", 0, false⟩,
   ⟨"tc_ingress", "tc__ingress__main", "", 0, false⟩, ⟨"tc_egress", "tc__egress__main", "", 0, false⟩,
   ⟨"kprobe", "kprobe__", "", 1, false⟩, ⟨"kretprobe", "kretprobe__", "", 1, false⟩,
   ⟨"fentry", "fentry__", "", 1, false⟩, ⟨"fexit", "fexit__", "", 1, false⟩,
   ⟨"tracepoint", "tracepoint__", "__", 2, false⟩,
   ⟨"user_cmd", "user_ringbuf__cmd_handler", "", 0, false⟩,
   ⟨"uprobe", "uprobe__react", "", 1, true⟩, ⟨"uretprobe", "uretprobe__react", "", 1, true⟩,
   ⟨"go_uret", "uprobe__react", "", 1, true⟩,
   ⟨"usdt", "usdt__react__", "", 3, true⟩, ⟨"perf_event", "perf_event__main", "", 0, false⟩,
   ⟨"timer", "spnl_timer__main", "", 0, false⟩]

def ccReactorKind (kind : String) : Option ReactorKind := reactorKinds.find? fun k => k.kind = kind

/-! ### The pass -/

/-- `die`. -/
structure Die where
  message : String
  what : Option String
  deriving DecidableEq, Repr

inductive CcTy where
  | int
  | void
  deriving DecidableEq, Repr

/-- A synthesized method. -/
structure Method where
  name : String
  ret : CcTy
  bodyId : Nat
  pnames : List String
  deriving DecidableEq, Repr

/-- How a list of symbols is attached. -/
inductive AttachMode where
  | auto
  | expand
  | multi
  deriving DecidableEq, Repr

structure CcMulti where
  mname : String
  syms : List String
  declaredMode : AttachMode
  mode : AttachMode
  deriving DecidableEq, Repr

/-- What the pass has made so far. -/
structure State where
  usesTimer : Bool
  timerNs : Int
  multis : List CcMulti
  methods : List Method
  deriving DecidableEq, Repr

def ccTimerUnits : List (String × Int) :=
  [("seconds", 1000000000), ("second", 1000000000), ("milliseconds", 1000000),
   ("millisecond", 1000000), ("ms", 1000000), ("microseconds", 1000), ("microsecond", 1000),
   ("us", 1000), ("nanoseconds", 1), ("nanosecond", 1), ("ns", 1)]

def ccTimerUnitsStr : String := " ".intercalate (ccTimerUnits.map Prod.fst)

/-- The interval of one keyword. -/
def everyNs (key : Option String) (value : KwValue) : Except Die Int :=
  if key ≠ some "every" then
    .error ⟨"on :timer: `every:` is the only keyword accepted", some (key.getD "?")⟩
  else
    let notLiteral (type : String) : Except Die Int :=
      .error ⟨"on :timer: `every:` must be an integer literal with a unit, " ++
        "e.g. `every: 1.seconds`. The interval is folded into " ++
        "bpf_timer_start at compile time, so it cannot be an expression " ++
        "or a parameter (units: " ++ ccTimerUnitsStr ++ ")", some type⟩
    match value with
    | .integer n  => .ok n
    | .symbol _   => notLiteral "SymbolNode"
    | .other type => notLiteral (type.getD "?")
    | .call name receiver =>
        match ccTimerUnits.lookup name with
        | none =>
            .error ⟨"on :timer: unknown time unit. Accepted: " ++ ccTimerUnitsStr, some name⟩
        | some mul =>
            match receiver with
            | none =>
                .error ⟨"on :timer: `every:` needs an integer LITERAL before the unit " ++
                  "(`every: 5.seconds`); the value is a compile-time constant", some name⟩
            | some n =>
                if n ≤ 0 then
                  .error ⟨"on :timer: the interval must be positive -- bpf_timer_start(0) fires " ++
                    "once and the handler would never run again", some name⟩
                else .ok ((n * mul).bmod (2 ^ 64))

/-- `cc_timer_interval_ns`: the first keyword decides, and there may be none. -/
def ccTimerIntervalNs : List Arg → Except Die Int
  | [] => .ok 0
  | .keywords ((key, value) :: _) :: _ => everyNs key value
  | _ :: args => ccTimerIntervalNs args

/-- The timer of a unit. -/
def timerStep (st : State) (args : List Arg) : Except Die State :=
  if st.usesTimer then
    .error ⟨"on :timer: one timer per unit (the callback name is fixed at " ++
      "spnl_timer_cb_main). Do the second period's work inside the same " ++
      "handler with a counter, or split the probe in two", none⟩
  else do
    let ns ← ccTimerIntervalNs args
    if ns ≤ 0 then
      .error ⟨"on :timer needs an interval: `on :timer, every: 1.seconds do ... end`. " ++
        "Without one there is nothing to pass to bpf_timer_start, so the handler " ++
        "would be compiled and never fire (units: " ++ ccTimerUnitsStr ++ ")", none⟩
    else .ok { st with usesTimer := true, timerNs := ns }

/-- The symbols of a list; each is a non-empty literal and none comes twice. -/
def collectSyms : List String → List (Option String) → Except Die (List String)
  | syms, []      => .ok syms
  | syms, e :: es =>
      match e with
      | none | some "" =>
          .error ⟨"on :kprobe, %w[...]: every element must be a non-empty string literal " ++
            "(the names are compiled into SEC()s / a symbol array, so they cannot be computed; " ++
            "note that `%w[].each \x7b define_method ... \x7d` does not work either -- this pass " ++
            "reads the AST, so methods that only exist at run time are invisible)", none⟩
      | some s =>
          if s ∈ syms then .error ⟨"on :kprobe, %w[...]: duplicate symbol", some s⟩
          else collectSyms (syms ++ [s]) es

/-- `via:`, read from the keywords behind the list. -/
def declaredMode : AttachMode → List (Option String × KwValue) → Except Die AttachMode
  | mode, [] => .ok mode
  | _, (key, value) :: pairs =>
      if key ≠ some "via" then
        .error ⟨"on :kprobe, %w[...]: `via:` is the only keyword accepted", some (key.getD "?")⟩
      else
        match value with
        | .symbol "expand" => declaredMode .expand pairs
        | .symbol "multi"  => declaredMode .multi pairs
        | value =>
            .error ⟨"on :kprobe, %w[...]: `via:` must be :expand or :multi (omit it to let the " ++
              "codegen choose from the list size -- see `spinel-ebpf describe`)",
              some (match value with | .symbol v => v | _ => "?")⟩

/-- The keywords of the arguments. -/
def keywordPairs (args : List Arg) : List (Option String × KwValue) :=
  args.flatMap fun
    | .keywords pairs => pairs
    | _ => []

def ccMultiMaxSyms : Nat := 512
def ccMultiMaxSets : Nat := 64
def ccMultiAutoThreshold : Nat := 16

/-- `cc_multi_resolve_mode`, given `SPNL_ATTACH_MULTI`. -/
def ccMultiResolveMode (env : Option String) (declared : AttachMode) (n : Nat) :
    Except Die AttachMode :=
  if declared ≠ .auto then .ok declared
  else
    let bySize : AttachMode := if n ≥ ccMultiAutoThreshold then .multi else .expand
    match env with
    | none | some "" | some "auto" => .ok bySize
    | some "expand" => .ok .expand
    | some "multi" => .ok .multi
    | some e =>
        .error ⟨"SPNL_ATTACH_MULTI: expected auto|expand|multi (it only redirects handlers " ++
          "that did not declare `via:`)", some e⟩

/-- The list of symbols behind `on :kprobe`, if there is one. -/
def multiElements (kind : String) (rest : List Arg) : Option (List (Option String)) :=
  if kind ≠ "kprobe" then none
  else
    match rest with
    | .array elements :: _ => some elements
    | _ => none

/-- The block of a call and the id of its body. -/
def OnCall.handler (c : OnCall) : Option (Block × Nat) :=
  c.block.bind fun b => b.body.map fun id => (b, id)

/-- `cc_extract_block_params`. -/
def Block.pnames (b : Block) : List String := b.params.map fun p => safeDup (p.getD "")

/-- `cc_synthesize_multi`, at a list of symbols. -/
def ccSynthesizeMulti (env : Option String) (st : State) (c : OnCall) (rest : List Arg)
    (elements : List (Option String)) : Except Die State :=
  if elements.length = 0 then
    .error ⟨"on :kprobe, %w[...]: the symbol list is empty -- a handler bound to nothing " ++
      "is a program that loads and never fires", none⟩
  else if elements.length > ccMultiMaxSyms then
    .error ⟨"on :kprobe, %w[...]: too many symbols (limit 512)", none⟩
  else if st.multis.length ≥ ccMultiMaxSets then
    .error ⟨"too many multi-symbol handlers in one unit (limit 64)", none⟩
  else do
    let syms ← collectSyms [] elements
    let declared ← declaredMode .auto (keywordPairs (rest.drop 1))
    let mname := "kprobe_multi__set" ++ toString st.multis.length
    match c.handler with
    | none => .ok st
    | some (b, hbody) => do
        let mode ← ccMultiResolveMode env declared elements.length
        .ok { st with
          multis := st.multis ++ [⟨mname, syms, declared, mode⟩]
          methods := st.methods ++ [⟨mname, .int, hbody, b.pnames⟩] }

/-- A non-empty string literal. -/
def Arg.target : Arg → Option String
  | .string content => if content = "" then none else some content
  | _ => none

/-- The targets among the first `arity` arguments behind the kind. -/
def targets (arity : Nat) (rest : List Arg) : List String := (rest.take arity).filterMap Arg.target

/-- The name of a method, given the number of the module's numbered handlers before it. -/
def ReactorKind.methodName (rk : ReactorKind) (tg : List String) (react : Nat) : String :=
  if rk.arity = 0 then rk.pre
  else if rk.arity = 2 then rk.pre ++ tg.getD 0 "" ++ rk.joiner ++ tg.getD 1 ""
  else if rk.react then rk.pre ++ toString react
  else rk.pre ++ tg.getD 0 ""

/-- The name takes a number. -/
def ReactorKind.numbered (rk : ReactorKind) : Bool :=
  rk.arity ≠ 0 && rk.arity ≠ 2 && rk.react

/-- The type a method returns. -/
def ReactorKind.ret (rk : ReactorKind) : CcTy :=
  if rk.arity = 0 ∧ rk.kind = "timer" then .void else .int

/-- The timer's interval is read before its targets. -/
def timerGate (st : State) (c : OnCall) (rk : ReactorKind) : Except Die State :=
  if rk.kind = "timer" then timerStep st c.args else .ok st

/-- A call of a known kind. -/
def singleStep (st : State) (react : Nat) (c : OnCall) (rk : ReactorKind) (rest : List Arg) :
    Except Die (State × Nat) := do
  let st ← timerGate st c rk
  let tg := targets rk.arity rest
  if tg.length ≠ rk.arity then .ok (st, react)
  else
    let mname := rk.methodName tg react
    let react := if rk.numbered then react + 1 else react
    match c.handler with
    | none => .ok (st, react)
    | some (b, hbody) =>
        .ok ({ st with methods := st.methods ++ [⟨mname, rk.ret, hbody, b.pnames⟩] }, react)

/-- One `on` call. -/
def onStep (env : Option String) (s : State × Nat) (c : OnCall) : Except Die (State × Nat) :=
  match c.args with
  | .symbol kind :: rest =>
      match multiElements kind rest with
      | some elements => (ccSynthesizeMulti env s.1 c rest elements).map fun st => (st, s.2)
      | none =>
          match ccReactorKind kind with
          | none    => .ok s
          | some rk => singleStep s.1 s.2 c rk rest
  | _ => .ok s

/-- The array that a module's `on` calls are collected in. -/
def maxOnIds : Nat := 64

/-- A statement of the top level. -/
def moduleStep (env : Option String) (st : State) : Stmt → Except Die State
  | .module _ body =>
      if eventLoop body then
        (((onCalls body).take maxOnIds).foldlM (onStep env) (st, 0)).map Prod.fst
      else .ok st
  | _ => .ok st

/-- `cc_synthesize_reactor`: the methods it appends. -/
def ccSynthesizeReactor (env : Option String) (stmts : List Stmt) : Except Die (List Method) :=
  (stmts.foldlM (moduleStep env) ⟨false, 0, [], []⟩).map State.methods

end SpinelEbpf.Codegen.Reactor

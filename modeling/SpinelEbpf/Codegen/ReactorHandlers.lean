import SpinelEbpf.Codegen.Reactor
import SpinelEbpf.Support.Checked

/-!
# Codegen — which event handlers survive

`Reactor` is the pass; here is what becomes of a program's handlers.  The calls the pass looks at
are numbered (`sites`): by the numbered handlers before them in the same opening of a module, and
by the symbol lists before them in the program.  The methods it appends are those of the sites
(`methods_eq_sites`).

A handler becomes no method when its module is nested, when the opening it stands in does not mix
the loop in (another opening of the module may), when 64 calls of the opening stand before it, or
when its targets are not right behind the kind or empty.  Two methods share a name when their
handlers share a slot (`SameSlot`): a kind without targets, one target, a tracepoint's joined text,
or a number.  Those are all the ways in which a handler is lost or mistaken for another one
(`handlers_kept_iff`).
-/

namespace SpinelEbpf.Codegen.Reactor
open Checked (bind_ok)

/-! ### What a call becomes -/

/-- A call the pass makes a method of, but for its block. -/
inductive Form where
  | multi (elements : List (Option String))
  | single (rk : ReactorKind) (tg : List String)
  deriving DecidableEq, Repr

def OnCall.form (c : OnCall) : Option Form :=
  match c.args with
  | .symbol kind :: rest =>
      match multiElements kind rest with
      | some elements => some (.multi elements)
      | none =>
          match ccReactorKind kind with
          | none    => none
          | some rk =>
              if (targets rk.arity rest).length ≠ rk.arity then none
              else some (.single rk (targets rk.arity rest))
  | _ => none

/-- What stands before the part that tells methods of a kind apart. -/
def Form.pre : Form → String
  | .multi _     => "kprobe_multi__set"
  | .single rk _ => rk.pre

/-- What tells methods of a kind apart: targets, or a number. -/
def Form.tail (rank set : Nat) : Form → String
  | .multi _      => toString set
  | .single rk tg =>
      if rk.arity = 0 then ""
      else if rk.arity = 2 then tg.getD 0 "" ++ rk.joiner ++ tg.getD 1 ""
      else if rk.react then toString rank
      else tg.getD 0 ""

def Form.ret : Form → CcTy
  | .multi _     => .int
  | .single rk _ => rk.ret

/-- How far a call advances the numbers of its opening. -/
def OnCall.numbers (c : OnCall) : Nat :=
  match c.form with
  | some (.single rk _) => if rk.numbered then 1 else 0
  | _ => 0

/-- How many symbol lists a call adds. -/
def OnCall.sets (c : OnCall) : Nat :=
  match c.form, c.handler with
  | some (.multi _), some _ => 1
  | _, _ => 0

/-- The method of a call. -/
def OnCall.method (c : OnCall) (rank set : Nat) : Option Method :=
  c.form.bind fun f => c.handler.map fun h => ⟨f.pre ++ f.tail rank set, f.ret, h.2, h.1.pnames⟩

theorem methodName_eq (rk : ReactorKind) (tg : List String) (rank set : Nat) :
    rk.methodName tg rank = (Form.single rk tg).pre ++ (Form.single rk tg).tail rank set := by
  simp only [ReactorKind.methodName, Form.pre, Form.tail]
  split
  · rw [String.append_empty]
  · split
    · rw [String.append_assoc, String.append_assoc, String.append_assoc]
    · split <;> rfl

/-! ### One step -/

/-- What a call does to the methods and to the two counters. -/
structure Stepped (c : OnCall) (s s' : State × Nat) : Prop where
  methods : s'.1.methods = s.1.methods ++ (c.method s.2 s.1.multis.length).toList
  rank : s'.2 = s.2 + c.numbers
  sets : s'.1.multis.length = s.1.multis.length + c.sets

variable {st st' : State} {s' : State × Nat} {c : OnCall} {rk : ReactorKind} {env : Option String}
  {cs : List OnCall} {stmts : List Stmt} {tg tg' : List String}

theorem timerStep_ok {args : List Arg} (h : timerStep st args = .ok st') :
    st'.methods = st.methods ∧ st'.multis = st.multis := by
  rw [timerStep] at h
  split at h
  · cases h
  · obtain ⟨ns, -, h⟩ := bind_ok h
    split at h
    · cases h
    · cases h
      exact ⟨rfl, rfl⟩

theorem stepped_single {react : Nat} {kind : String} {rest : List Arg}
    (hargs : c.args = .symbol kind :: rest) (hmulti : multiElements kind rest = none)
    (hkind : ccReactorKind kind = some rk) (h : singleStep st react c rk rest = .ok s') :
    Stepped c (st, react) s' := by
  rw [singleStep] at h
  obtain ⟨st₁, htimer, h⟩ := bind_ok h
  have hsame : st₁.methods = st.methods ∧ st₁.multis = st.multis := by
    rw [timerGate] at htimer
    split at htimer
    · exact timerStep_ok htimer
    · cases htimer
      exact ⟨rfl, rfl⟩
  obtain ⟨hmethods, hmultis⟩ := hsame
  have hform : c.form = if (targets rk.arity rest).length ≠ rk.arity then none
      else some (.single rk (targets rk.arity rest)) := by
    simp only [OnCall.form, hargs, hmulti, hkind]
  by_cases hlen : (targets rk.arity rest).length ≠ rk.arity
  · simp only [if_pos hlen] at h hform
    cases h
    exact ⟨by simp [hmethods, OnCall.method, hform], by simp [OnCall.numbers, hform],
      by simp [hmultis, OnCall.sets, hform]⟩
  · simp only [if_neg hlen, methodName_eq rk _ react st.multis.length] at h hform
    cases hhandler : c.handler with
    | none =>
        rw [hhandler] at h
        cases h
        refine ⟨by simp [hmethods, OnCall.method, hform, hhandler], ?_,
          by simp [hmultis, OnCall.sets, hform]⟩
        simp only [OnCall.numbers, hform]
        split <;> rfl
    | some b =>
        rw [hhandler] at h
        cases h
        refine ⟨by simp [hmethods, OnCall.method, hform, hhandler, Form.ret], ?_,
          by simp [hmultis, OnCall.sets, hform]⟩
        simp only [OnCall.numbers, hform]
        split <;> rfl

theorem stepped_multi {react : Nat} {kind : String} {rest : List Arg}
    {elements : List (Option String)} (hargs : c.args = .symbol kind :: rest)
    (hmulti : multiElements kind rest = some elements)
    (h : ccSynthesizeMulti env st c rest elements = .ok st') :
    Stepped c (st, react) (st', react) := by
  have hform : c.form = some (.multi elements) := by simp only [OnCall.form, hargs, hmulti]
  rw [ccSynthesizeMulti] at h
  split_ifs at h
  obtain ⟨syms, -, h⟩ := bind_ok h
  obtain ⟨declared, -, h⟩ := bind_ok h
  cases hhandler : c.handler with
  | none =>
      rw [hhandler] at h
      cases h
      exact ⟨by simp [OnCall.method, hform, hhandler], by simp [OnCall.numbers, hform],
        by simp [OnCall.sets, hform, hhandler]⟩
  | some b =>
      rw [hhandler] at h
      obtain ⟨mode, -, h⟩ := bind_ok h
      cases h
      exact ⟨by simp [OnCall.method, hform, hhandler, Form.pre, Form.tail, Form.ret],
        by simp [OnCall.numbers, hform], by simp [OnCall.sets, hform, hhandler]⟩

/-- **What one `on` call does.** -/
theorem stepped_onStep {s : State × Nat} (h : onStep env s c = .ok s') : Stepped c s s' := by
  have hskip : ∀ hform : c.form = none, Stepped c s s := fun hform =>
    ⟨by simp [OnCall.method, hform], by simp [OnCall.numbers, hform], by simp [OnCall.sets, hform]⟩
  rw [onStep] at h
  split at h
  · rename_i kind rest hargs
    split at h
    · rename_i elements hmulti
      cases hst : ccSynthesizeMulti env s.1 c rest elements with
      | error e => rw [hst] at h; cases h
      | ok st =>
          rw [hst] at h
          cases h
          exact stepped_multi hargs hmulti hst
    · rename_i hmulti
      split at h
      · rename_i hkind
        cases h
        exact hskip (by simp only [OnCall.form, hargs, hmulti, hkind])
      · rename_i rk hkind
        exact stepped_single hargs hmulti hkind h
  · rename_i hargs
    cases h
    refine hskip ?_
    rw [OnCall.form]
    split
    · rename_i kind rest heq
      exact absurd heq (hargs kind rest)
    · rfl

/-! ### Whole programs -/

/-- One opening of a module: the module's path, whether the loop is mixed in here, and the `on`
calls. -/
structure Opening where
  path : List String
  mixes : Bool
  calls : List OnCall
  deriving DecidableEq

def opening (path : List String) (body : List Stmt) : Opening :=
  ⟨path, eventLoop body, onCalls body⟩

/-- The openings at the top level. -/
def topOpenings (stmts : List Stmt) : List Opening :=
  stmts.filterMap fun
    | .module path body => some (opening path body)
    | _ => none

/-- The openings the pass goes into: at the top level, with the mixin in the opening itself. -/
def topLoops (stmts : List Stmt) : List Opening := (topOpenings stmts).filter Opening.mixes

/-- The calls the pass keeps of an opening. -/
def Opening.collected (o : Opening) : List OnCall := o.calls.take maxOnIds

/-- A call the pass looks at: its module, the numbered handlers before it in its opening, and the
symbol lists before it in the program. -/
structure Site where
  module : List String
  call : OnCall
  rank : Nat
  set : Nat

def Site.method (s : Site) : Option Method := s.call.method s.rank s.set

/-- The sites of some calls of one opening. -/
def callSites (module : List String) : (rank set : Nat) → List OnCall → List Site
  | _, _, [] => []
  | rank, set, c :: cs =>
      ⟨module, c, rank, set⟩ :: callSites module (rank + c.numbers) (set + c.sets) cs

/-- The sites of some openings. -/
def openingSites : (set : Nat) → List Opening → List Site
  | _, []        => []
  | set, o :: os => callSites o.path 0 set o.collected ++
      openingSites (set + (o.collected.map OnCall.sets).sum) os

/-- The calls the pass looks at. -/
def sites (stmts : List Stmt) : List Site := openingSites 0 (topLoops stmts)

theorem foldlM_onStep (module : List String) {s : State × Nat}
    (h : cs.foldlM (onStep env) s = .ok s') :
    s'.1.methods = s.1.methods ++
        (callSites module s.2 s.1.multis.length cs).filterMap Site.method ∧
      s'.1.multis.length = s.1.multis.length + (cs.map OnCall.sets).sum := by
  induction cs generalizing s with
  | nil =>
      cases h
      exact ⟨(List.append_nil _).symm, rfl⟩
  | cons c cs ih =>
      rw [List.foldlM_cons] at h
      obtain ⟨s₁, hstep, h⟩ := bind_ok h
      obtain ⟨hmethods, hrank, hsets⟩ := stepped_onStep hstep
      obtain ⟨hmethods', hsets'⟩ := ih h
      rw [hmethods, hrank, hsets] at hmethods'
      refine ⟨?_, ?_⟩
      · rw [hmethods', callSites, List.append_assoc]
        congr 1
        cases hm : c.method s.2 s.1.multis.length with
        | none => rw [List.filterMap_cons_none (by exact hm)]; rfl
        | some m => rw [List.filterMap_cons_some (by exact hm)]; rfl
      · rw [hsets', hsets, List.map_cons, List.sum_cons, Nat.add_assoc]

/-- The run over the statements, by the openings it goes into. -/
theorem foldlM_moduleStep (h : stmts.foldlM (moduleStep env) st = .ok st') :
    st'.methods = st.methods ++
      (openingSites st.multis.length (topLoops stmts)).filterMap Site.method := by
  induction stmts generalizing st with
  | nil =>
      cases h
      exact (List.append_nil _).symm
  | cons stmt stmts ih =>
      rw [List.foldlM_cons] at h
      obtain ⟨st₁, hstep, h⟩ := bind_ok h
      cases stmt with
      | on c => cases hstep; exact ih h
      | mixin paths => cases hstep; exact ih h
      | scope path body => cases hstep; exact ih h
      | other => cases hstep; exact ih h
      | module path body =>
          by_cases hloop : eventLoop body
          · have htop : topLoops (.module path body :: stmts) =
                opening path body :: topLoops stmts := List.filter_cons_of_pos hloop
            simp only [moduleStep, if_pos hloop] at hstep
            cases hrun : ((onCalls body).take maxOnIds).foldlM (onStep env) (st, 0) with
            | error e => rw [hrun] at hstep; cases hstep
            | ok s₁ =>
                rw [hrun] at hstep
                cases hstep
                obtain ⟨hmethods, hsets⟩ := foldlM_onStep path hrun
                have hrest := ih h
                rw [hmethods, hsets] at hrest
                rw [hrest, htop, openingSites, List.filterMap_append, List.append_assoc]
                rfl
          · have htop : topLoops (.module path body :: stmts) = topLoops stmts :=
              List.filter_cons_of_neg hloop
            simp only [moduleStep, if_neg hloop] at hstep
            cases hstep
            rw [htop]
            exact ih h

/-- **The methods are those of the sites.** -/
theorem methods_eq_sites {ms : List Method} (h : ccSynthesizeReactor env stmts = .ok ms) :
    ms = (sites stmts).filterMap Site.method := by
  rw [ccSynthesizeReactor] at h
  cases hrun : stmts.foldlM (moduleStep env) ⟨false, 0, [], []⟩ with
  | error e => rw [hrun] at h; cases h
  | ok st =>
      rw [hrun] at h
      cases h
      exact foldlM_moduleStep hrun

/-! ### Names -/

/-- The beginnings of all method names. -/
def pres : List String := "kprobe_multi__set" :: reactorKinds.map ReactorKind.pre

/-- No beginning continues another one. -/
theorem pres_prefix_free :
    ∀ p ∈ pres, ∀ q ∈ pres, p.toList.isPrefixOf q.toList = true → p = q := by
  decide +kernel

theorem append_inj_of_pres {p q x y : String} (hp : p ∈ pres) (hq : q ∈ pres) :
    p ++ x = q ++ y ↔ p = q ∧ x = y := by
  constructor
  · intro h
    have hlist : p.toList ++ x.toList = q.toList ++ y.toList := by
      rw [← String.toList_append, ← String.toList_append, h]
    have hpq : p = q := by
      rcases List.append_eq_append_iff.mp hlist with ⟨r, hr, -⟩ | ⟨r, hr, -⟩
      · exact pres_prefix_free p hp q hq (List.isPrefixOf_iff_prefix.mpr ⟨r, hr.symm⟩)
      · exact (pres_prefix_free q hq p hp (List.isPrefixOf_iff_prefix.mpr ⟨r, hr.symm⟩)).symm
    subst hpq
    exact ⟨rfl, String.toList_injective (List.append_cancel_left hlist)⟩
  · rintro ⟨rfl, rfl⟩
    rfl

/-- Rows with the same beginning differ in the kind only. -/
theorem row_of_pre :
    ∀ rk ∈ reactorKinds, ∀ rk' ∈ reactorKinds, rk.pre = rk'.pre →
      rk'.arity = rk.arity ∧ rk'.react = rk.react ∧ rk'.joiner = rk.joiner := by
  decide +kernel

/-- A row has no target, one, or the two of a tracepoint, unless its methods are numbered. -/
theorem row_shape :
    ∀ rk ∈ reactorKinds, (rk.arity = 0 ∧ rk.react = false) ∨ (rk.arity = 1 ∧ rk.react = false) ∨
      (rk.arity = 2 ∧ rk.react = false) ∨
      (rk.arity ≠ 0 ∧ rk.arity ≠ 2 ∧ rk.react = true) := by
  decide +kernel

/-- A call of a known kind has its targets. -/
theorem form_single (h : c.form = some (.single rk tg)) :
    rk ∈ reactorKinds ∧ tg.length = rk.arity := by
  rw [OnCall.form] at h
  split at h
  · split at h
    · cases h
    · split at h
      · cases h
      · rename_i hkind
        split_ifs at h with hlen
        cases h
        exact ⟨List.mem_of_find?_eq_some hkind, not_not.mp hlen⟩
  · cases h

theorem pre_mem_pres {f : Form} (h : c.form = some f) : f.pre ∈ pres := by
  cases f with
  | multi elements => exact List.mem_cons_self
  | single rk tg =>
      exact List.mem_cons_of_mem _ (List.mem_map_of_mem (form_single h).1)

/-- What two handlers of known kinds have in common when their methods get one name: the beginning
(which `uprobe` and `go_uret` share), and no target, the same target, the same joined text of a
tracepoint, or the same number. -/
structure SameSlot (s t : Site) (rk rk' : ReactorKind) (tg tg' : List String) : Prop where
  left : s.call.form = some (.single rk tg)
  right : t.call.form = some (.single rk' tg')
  pre : rk.pre = rk'.pre
  slot : rk.arity = 0 ∨ (rk.arity = 1 ∧ rk.react = false ∧ tg = tg') ∨
    (rk.arity = 2 ∧ tg.getD 0 "" ++ rk.joiner ++ tg.getD 1 "" =
      tg'.getD 0 "" ++ rk.joiner ++ tg'.getD 1 "") ∨
    (rk.react = true ∧ s.rank = t.rank)

theorem eq_of_length_one (h : tg.length = 1) (h' : tg'.length = 1) :
    tg.getD 0 "" = tg'.getD 0 "" ↔ tg = tg' := by
  obtain ⟨a, rfl⟩ := List.length_eq_one_iff.mp h
  obtain ⟨b, rfl⟩ := List.length_eq_one_iff.mp h'
  simp

variable {s t : Site} {b set : Nat} {o : Opening} {m : Method}

/-- **Two methods of known kinds have one name exactly when their handlers share a slot.** -/
theorem single_name_eq_iff {rk' : ReactorKind} (hs : s.call.form = some (.single rk tg))
    (ht : t.call.form = some (.single rk' tg')) (n m : Nat) :
    (Form.single rk tg).pre ++ (Form.single rk tg).tail s.rank n =
        (Form.single rk' tg').pre ++ (Form.single rk' tg').tail t.rank m ↔
      SameSlot s t rk rk' tg tg' := by
  obtain ⟨hrk, htg⟩ := form_single hs
  obtain ⟨hrk', htg'⟩ := form_single ht
  rw [append_inj_of_pres (pre_mem_pres hs) (pre_mem_pres ht)]
  constructor
  · rintro ⟨hpre, htail⟩
    obtain ⟨harity, hreact, hjoiner⟩ := row_of_pre rk hrk rk' hrk' hpre
    refine ⟨hs, ht, hpre, ?_⟩
    simp only [Form.tail, harity, hreact, hjoiner] at htail
    rcases row_shape rk hrk with ⟨h0, -⟩ | ⟨h1, hr⟩ | ⟨h2, -⟩ | ⟨hne0, hne2, hr⟩
    · exact .inl h0
    · rw [h1] at htg
      rw [harity, h1] at htg'
      simp only [h1, hr] at htail
      exact .inr (.inl ⟨h1, hr, (eq_of_length_one htg htg').mp htail⟩)
    · simp only [h2] at htail
      exact .inr (.inr (.inl ⟨h2, htail⟩))
    · simp only [if_neg hne0, if_neg hne2, hr, if_true] at htail
      exact .inr (.inr (.inr ⟨hr, Nat.repr_inj.mp htail⟩))
  · rintro ⟨-, -, hpre, hslot⟩
    obtain ⟨harity, hreact, hjoiner⟩ := row_of_pre rk hrk rk' hrk' hpre
    refine ⟨hpre, ?_⟩
    simp only [Form.tail, harity, hreact, hjoiner]
    rcases hslot with h0 | ⟨h1, hr, rfl⟩ | ⟨h2, hjoined⟩ | ⟨hr, hrank⟩
    · rw [if_pos h0, if_pos h0]
    · simp [h1, hr]
    · simp only [h2]
      exact hjoined
    · rcases row_shape rk hrk with ⟨-, hf⟩ | ⟨-, hf⟩ | ⟨-, hf⟩ | ⟨hne0, hne2, -⟩
      · rw [hr] at hf; cases hf
      · rw [hr] at hf; cases hf
      · rw [hr] at hf; cases hf
      · simp only [if_neg hne0, if_neg hne2, hr, if_true, hrank]

/-! ### Handlers -/

mutual

/-- The openings in a statement inside the module or class `outer`. -/
def Stmt.openings (outer : List String) : Stmt → List Opening
  | .module path body => opening (outer ++ path) body :: openingsIn (outer ++ path) body
  | .scope path body => openingsIn (outer ++ path) body
  | _ => []

/-- Those in some statements. -/
def openingsIn (outer : List String) : List Stmt → List Opening
  | [] => []
  | stmt :: stmts => stmt.openings outer ++ openingsIn outer stmts

end

/-- The openings that are not at the top level. -/
def nestedOpenings (stmts : List Stmt) : List Opening :=
  stmts.flatMap fun
    | .module path body | .scope path body => openingsIn path body
    | _ => []

def openings (stmts : List Stmt) : List Opening := topOpenings stmts ++ nestedOpenings stmts

/-- The openings of the modules that include the event loop, in whichever opening they do. -/
def loops (stmts : List Stmt) : List Opening :=
  (openings stmts).filter fun o => (openings stmts).any fun q => q.path = o.path && q.mixes

/-- The id of the body of a call's block. -/
def OnCall.body (c : OnCall) : Option Nat := c.handler.map Prod.snd

def Opening.bodies (o : Opening) : List Nat := o.calls.filterMap OnCall.body

/-- A program; a body belongs to one call. -/
structure Program where
  stmts : List Stmt
  distinct : ((openings stmts).flatMap Opening.bodies).Nodup

def OnCall.kind (c : OnCall) : Option String :=
  match c.args with
  | .symbol kind :: _ => some kind
  | _ => none

/-- The string targets of a call: all string literals behind the kind. -/
def OnCall.strings (c : OnCall) : List String :=
  (c.args.drop 1).filterMap fun
    | .string content => some content
    | _ => none

/-- The list of symbols of a call. -/
def OnCall.symbols (c : OnCall) : List (Option String) :=
  match c.args with
  | .symbol kind :: rest => (multiElements kind rest).getD []
  | _ => []

/-- A call of a known kind with the string targets the kind needs, or a list of symbols, and a
block with a body. -/
def OnCall.wellFormed (c : OnCall) : Bool :=
  c.handler.isSome &&
    match c.args with
    | .symbol kind :: rest =>
        match multiElements kind rest with
        | some _ => true
        | none =>
            match ccReactorKind kind with
            | none    => false
            | some rk => rk.arity ≤ c.strings.length
    | _ => false

/-- The arguments right behind the kind, as many as it needs, are non-empty string literals. -/
def OnCall.targeted (c : OnCall) : Bool :=
  match c.args with
  | .symbol kind :: rest =>
      match multiElements kind rest, ccReactorKind kind with
      | none, some rk => (rest.take rk.arity).all fun a => a.target.isSome
      | _, _          => true
  | _ => true

/-- The modules, kinds or targets of two calls differ. -/
def Differ (m : List String) (c : OnCall) (n : List String) (d : OnCall) : Prop :=
  m ≠ n ∨ c.kind ≠ d.kind ∨ c.strings ≠ d.strings ∨ c.symbols ≠ d.symbols

/-- Every handler becomes one method, and handlers that differ become methods of different names. -/
structure Kept (p : Program) (ms : List Method) : Prop where
  once : ∀ o ∈ loops p.stmts, ∀ c ∈ o.calls, c.wellFormed = true → ∀ b, c.body = some b →
    (ms.map Method.bodyId).count b = 1
  named : ∀ o ∈ loops p.stmts, ∀ q ∈ loops p.stmts, ∀ c ∈ o.calls, ∀ d ∈ q.calls,
    Differ o.path c q.path d → ∀ m ∈ ms, ∀ m' ∈ ms, c.body = some m.bodyId →
      d.body = some m'.bodyId → m.name ≠ m'.name

/-- The programs that keep their handlers: a well-formed call stands in an opening at the top level
that mixes the loop in itself, among the first 64 calls there, with its targets right behind the
kind and not empty; and handlers that differ share no slot. -/
structure Separate (p : Program) : Prop where
  seen : ∀ o ∈ loops p.stmts, ∀ c ∈ o.calls, c.wellFormed = true →
    o ∈ topLoops p.stmts ∧ c ∈ o.collected ∧ c.targeted = true
  slots : ∀ s ∈ sites p.stmts, ∀ t ∈ sites p.stmts, s.call.body.isSome → t.call.body.isSome →
    Differ s.module s.call t.module t.call → ∀ rk rk' tg tg', ¬ SameSlot s t rk rk' tg tg'

theorem topLoops_subset (stmts : List Stmt) : topLoops stmts ⊆ loops stmts := by
  intro o ho
  obtain ⟨htop, hmixes⟩ := List.mem_filter.mp ho
  have hmem : o ∈ openings stmts := List.mem_append_left _ htop
  exact List.mem_filter.mpr ⟨hmem, List.any_eq_true.mpr ⟨o, hmem, by simp [hmixes]⟩⟩

/-- **A body identifies its call and the opening.** -/
theorem Program.eq_of_body (p : Program) {q : Opening} (ho : o ∈ openings p.stmts)
    (hq : q ∈ openings p.stmts) {d : OnCall} (hc : c ∈ o.calls) (hd : d ∈ q.calls)
    (hcb : c.body = some b) (hdb : d.body = some b) : o = q ∧ c = d := by
  obtain ⟨hnodup, hpairwise⟩ := List.nodup_flatMap.mp p.distinct
  have hoq : o = q := by
    by_contra hne
    have : Std.Symm (Function.onFun List.Disjoint Opening.bodies) := ⟨fun _ _ h => h.symm⟩
    exact hpairwise.forall ho hq hne (List.mem_filterMap.mpr ⟨c, hc, hcb⟩)
      (List.mem_filterMap.mpr ⟨d, hd, hdb⟩)
  subst hoq
  refine ⟨rfl, ?_⟩
  by_contra hne
  have : Std.Symm fun a a' : OnCall => ∀ b, a.body = some b → ∀ b', a'.body = some b' → b ≠ b' :=
    ⟨fun _ _ h b hb b' hb' => (h b' hb' b hb).symm⟩
  exact (List.pairwise_filterMap.mp (hnodup o ho)).forall hc hd hne b hcb b hdb rfl

/-! ### Sites -/

theorem mem_callSites {module : List String} {rank : Nat} (h : s ∈ callSites module rank set cs) :
    s.module = module ∧ s.call ∈ cs := by
  induction cs generalizing rank set with
  | nil => cases h
  | cons c cs ih =>
      rcases List.mem_cons.mp h with rfl | h
      · exact ⟨rfl, List.mem_cons_self⟩
      · obtain ⟨hmodule, hcall⟩ := ih h
        exact ⟨hmodule, List.mem_cons_of_mem c hcall⟩

theorem mem_openingSites {os : List Opening} (h : s ∈ openingSites set os) :
    ∃ o ∈ os, s.module = o.path ∧ s.call ∈ o.collected := by
  induction os generalizing set with
  | nil => cases h
  | cons o os ih =>
      rcases List.mem_append.mp h with h | h
      · exact ⟨o, List.mem_cons_self, mem_callSites h⟩
      · obtain ⟨q, hq, hsite⟩ := ih h
        exact ⟨q, List.mem_cons_of_mem o hq, hsite⟩

theorem map_call_callSites (module : List String) (rank set : Nat) (cs : List OnCall) :
    (callSites module rank set cs).map Site.call = cs := by
  induction cs generalizing rank set with
  | nil => rfl
  | cons c cs ih => rw [callSites, List.map_cons, ih]

/-- The calls of the sites, in order. -/
theorem map_call_openingSites (set : Nat) (os : List Opening) :
    (openingSites set os).map Site.call = os.flatMap Opening.collected := by
  induction os generalizing set with
  | nil => rfl
  | cons o os ih => rw [openingSites, List.map_append, map_call_callSites, ih, List.flatMap_cons]

/-- The symbol lists before a site. -/
theorem set_callSites {module : List String} {rank : Nat} (h : s ∈ callSites module rank set cs) :
    set ≤ s.set ∧ s.set + s.call.sets ≤ set + (cs.map OnCall.sets).sum := by
  induction cs generalizing rank set with
  | nil => cases h
  | cons c cs ih =>
      rw [List.map_cons, List.sum_cons]
      rcases List.mem_cons.mp h with rfl | h
      · exact ⟨Nat.le_refl _, by dsimp only; omega⟩
      · obtain ⟨hlo, hhi⟩ := ih h
        exact ⟨by omega, by omega⟩

theorem pairwise_callSites (module : List String) (rank set : Nat) (cs : List OnCall) :
    (callSites module rank set cs).Pairwise fun s t => s.set + s.call.sets ≤ t.set := by
  induction cs generalizing rank set with
  | nil => exact List.Pairwise.nil
  | cons c cs ih => exact List.pairwise_cons.mpr ⟨fun t ht => (set_callSites ht).1, ih _ _⟩

theorem set_openingSites {os : List Opening} (h : s ∈ openingSites set os) : set ≤ s.set := by
  induction os generalizing set with
  | nil => cases h
  | cons o os ih =>
      rcases List.mem_append.mp h with h | h
      · exact (set_callSites h).1
      · have hle := ih h
        omega

theorem pairwise_openingSites (set : Nat) (os : List Opening) :
    (openingSites set os).Pairwise fun s t => s.set + s.call.sets ≤ t.set := by
  induction os generalizing set with
  | nil => exact List.Pairwise.nil
  | cons o os ih =>
      refine List.pairwise_append.mpr ⟨pairwise_callSites _ _ _ _, ih _, fun s hs t ht => ?_⟩
      exact (set_callSites hs).2.trans (set_openingSites ht)

/-- Symbol lists are numbered apart. -/
theorem site_eq_of_set (hs : s ∈ sites stmts) (ht : t ∈ sites stmts) (hset : s.set = t.set)
    (hs1 : s.call.sets = 1) (ht1 : t.call.sets = 1) :
    s = t := by
  obtain ⟨i, hi, rfl⟩ := List.mem_iff_getElem.mp hs
  obtain ⟨j, hj, rfl⟩ := List.mem_iff_getElem.mp ht
  have hpair := List.pairwise_iff_getElem.mp (pairwise_openingSites 0 (topLoops stmts))
  rcases Nat.lt_trichotomy i j with hlt | rfl | hlt
  · have := hpair i j hi hj hlt
    exact absurd this (by simp only [sites] at *; omega)
  · rfl
  · have := hpair j i hj hi hlt
    exact absurd this (by simp only [sites] at *; omega)

/-! ### Methods and the calls they come from -/

theorem method_eq_some_iff :
    s.method = some m ↔ ∃ f h, s.call.form = some f ∧ s.call.handler = some h ∧
      m = ⟨f.pre ++ f.tail s.rank s.set, f.ret, h.2, h.1.pnames⟩ := by
  rw [Site.method, OnCall.method, Option.bind_eq_some_iff]
  constructor
  · rintro ⟨f, hf, hm⟩
    obtain ⟨h, hh, rfl⟩ := Option.map_eq_some_iff.mp hm
    exact ⟨f, h, hf, hh, rfl⟩
  · rintro ⟨f, h, hf, hh, rfl⟩
    exact ⟨f, hf, Option.map_eq_some_iff.mpr ⟨h, hh, rfl⟩⟩

theorem body_of_method (h : s.method = some m) :
    s.call.body = some m.bodyId := by
  obtain ⟨f, hd, -, hh, rfl⟩ := method_eq_some_iff.mp h
  rw [OnCall.body, hh, Option.map_some]

/-- The bodies of the methods stand among those of the calls, in order. -/
theorem bodies_sublist (l : List Site) :
    ((l.filterMap Site.method).map Method.bodyId).Sublist
      ((l.map Site.call).filterMap OnCall.body) := by
  induction l with
  | nil => exact List.Sublist.refl _
  | cons s l ih =>
      rw [List.map_cons]
      cases hm : s.method with
      | none =>
          rw [List.filterMap_cons_none hm]
          exact ih.trans ((List.sublist_cons_self s.call _).filterMap _)
      | some m =>
          rw [List.filterMap_cons_some hm, List.filterMap_cons_some (body_of_method hm),
            List.map_cons]
          exact ih.cons_cons _

/-- A body makes one method at most. -/
theorem bodies_nodup (p : Program) :
    (((sites p.stmts).filterMap Site.method).map Method.bodyId).Nodup := by
  refine p.distinct.sublist ((bodies_sublist _).trans ?_)
  rw [sites, map_call_openingSites, List.filterMap_flatMap]
  have hcut := List.Sublist.flatMap_right (topLoops p.stmts)
    fun o _ => (List.take_sublist maxOnIds o.calls).filterMap OnCall.body
  exact hcut.trans (List.Sublist.flatMap
    (List.filter_sublist.trans (List.sublist_append_left _ _)) Opening.bodies)

/-- A call with the body of a site is the call of the site, in an opening of the site's module that
the pass goes into. -/
theorem site_of_body (p : Program) (hs : s ∈ sites p.stmts) (ho : o ∈ loops p.stmts)
    (hc : c ∈ o.calls) (hsb : s.call.body = some b) (hcb : c.body = some b) :
    s.module = o.path ∧ s.call = c ∧ o ∈ topLoops p.stmts ∧ c ∈ o.collected := by
  obtain ⟨q, hq, hmodule, hcall⟩ := mem_openingSites hs
  obtain ⟨rfl, rfl⟩ := p.eq_of_body (List.mem_of_mem_filter (topLoops_subset _ hq))
    (List.mem_of_mem_filter ho) (List.mem_of_mem_take hcall) hc hsb hcb
  exact ⟨hmodule, rfl, hq, hcall⟩

/-! ### Well-formed calls -/

theorem wellFormed_body (h : c.wellFormed = true) : ∃ b, c.body = some b := by
  rw [OnCall.wellFormed, Bool.and_eq_true] at h
  obtain ⟨hd, hh⟩ := Option.isSome_iff_exists.mp h.1
  exact ⟨hd.2, by rw [OnCall.body, hh, Option.map_some]⟩

/-- A well-formed call becomes a method when its targets stand right behind the kind. -/
theorem form_isSome_iff (h : c.wellFormed = true) :
    c.form.isSome = true ↔ c.targeted = true := by
  rw [OnCall.wellFormed, Bool.and_eq_true] at h
  obtain ⟨-, h⟩ := h
  split at h
  · rename_i kind rest hargs
    simp only [OnCall.form, OnCall.targeted, hargs]
    cases hmulti : multiElements kind rest with
    | some elements => simp
    | none =>
        rw [hmulti] at h
        cases hkind : ccReactorKind kind with
        | none => rw [hkind] at h; cases h
        | some rk =>
            rw [hkind] at h
            have hlen : rk.arity ≤ rest.length := by
              refine (of_decide_eq_true h).trans ?_
              rw [OnCall.strings, hargs]
              exact List.length_filterMap_le _ _
            have htake : (rest.take rk.arity).length = rk.arity := List.length_take_of_le hlen
            have hiff : (targets rk.arity rest).length = rk.arity ↔
                ∀ a ∈ rest.take rk.arity, a.target.isSome = true := by
              rw [← List.filterMap_length_eq_length, htake, targets]
            simp only [List.all_eq_true, ← hiff]
            by_cases htg : (targets rk.arity rest).length = rk.arity
            · simp [htg]
            · simp [htg]
  · cases h

/-! ### Which programs keep their handlers -/

variable {p : Program}

/-- A body that made a method is that of a site with a form. -/
theorem site_of_count (h : (((sites p.stmts).filterMap Site.method).map Method.bodyId).count b = 1) :
    ∃ s ∈ sites p.stmts, s.call.form.isSome = true ∧ s.call.body = some b := by
  have hmem := List.count_pos_iff.mp (by omega :
    0 < (((sites p.stmts).filterMap Site.method).map Method.bodyId).count b)
  obtain ⟨m, hm, rfl⟩ := List.mem_map.mp hmem
  obtain ⟨s, hs, hsm⟩ := List.mem_filterMap.mp hm
  obtain ⟨f, hd, hf, -, -⟩ := method_eq_some_iff.mp hsm
  exact ⟨s, hs, by rw [hf]; rfl, body_of_method hsm⟩

/-- The beginning of a symbol list's name is no row's. -/
theorem multi_pre_ne : ∀ rk ∈ reactorKinds, "kprobe_multi__set" ≠ rk.pre := by
  decide +kernel

/-- Two methods with one name come from one site, or from handlers of known kinds that share a
slot. -/
theorem name_eq {m' : Method} (hs : s ∈ sites stmts) (ht : t ∈ sites stmts)
    (hsm : s.method = some m) (htm : t.method = some m') (hname : m.name = m'.name) :
    s = t ∨ ∃ rk rk' tg tg', SameSlot s t rk rk' tg tg' := by
  obtain ⟨f, h, hf, hh, rfl⟩ := method_eq_some_iff.mp hsm
  obtain ⟨g, k, hg, hk, rfl⟩ := method_eq_some_iff.mp htm
  cases f with
  | single rk tg =>
      cases g with
      | single rk' tg' => exact .inr ⟨rk, rk', tg, tg', (single_name_eq_iff hf hg _ _).mp hname⟩
      | multi elements =>
          have hpre := ((append_inj_of_pres (pre_mem_pres hf) (pre_mem_pres hg)).mp hname).1
          exact absurd hpre.symm (multi_pre_ne rk (form_single hf).1)
  | multi elements =>
      obtain ⟨hpre, htail⟩ := (append_inj_of_pres (pre_mem_pres hf) (pre_mem_pres hg)).mp hname
      cases g with
      | single rk' tg' => exact absurd hpre (multi_pre_ne rk' (form_single hg).1)
      | multi elements' =>
          refine .inl (site_eq_of_set hs ht (Nat.repr_inj.mp htail) ?_ ?_)
          · simp only [OnCall.sets, hf, hh]
          · simp only [OnCall.sets, hg, hk]

/-- Sites that share a slot make methods with one name. -/
theorem SameSlot.method {rk' : ReactorKind} (h : SameSlot s t rk rk' tg tg')
    (hs : s.call.body.isSome) (ht : t.call.body.isSome) :
    ∃ m m', s.method = some m ∧ t.method = some m' ∧ m.name = m'.name := by
  rw [OnCall.body, Option.isSome_map] at hs ht
  obtain ⟨a, ha⟩ := Option.isSome_iff_exists.mp hs
  obtain ⟨b, hb⟩ := Option.isSome_iff_exists.mp ht
  exact ⟨_, _, method_eq_some_iff.mpr ⟨_, a, h.left, ha, rfl⟩,
    method_eq_some_iff.mpr ⟨_, b, h.right, hb, rfl⟩,
    (single_name_eq_iff h.left h.right _ _).mpr h⟩

theorem separate_of_kept (h : Kept p ((sites p.stmts).filterMap Site.method)) : Separate p := by
  refine ⟨fun o ho c hc hwf => ?_, ?_⟩
  · obtain ⟨b, hb⟩ := wellFormed_body hwf
    obtain ⟨s, hs, hf, hsb⟩ := site_of_count (h.once o ho c hc hwf b hb)
    obtain ⟨-, rfl, htop, hcollected⟩ := site_of_body p hs ho hc hsb hb
    exact ⟨htop, hcollected, (form_isSome_iff hwf).mp hf⟩
  · intro s hs t ht hsb htb hdiffer rk rk' tg tg' hslot
    obtain ⟨m, m', hm, hm', hname⟩ := hslot.method hsb htb
    obtain ⟨o, ho, hso, hc⟩ := mem_openingSites hs
    obtain ⟨q, hq, htq, hd⟩ := mem_openingSites ht
    rw [hso, htq] at hdiffer
    exact h.named o (topLoops_subset _ ho) q (topLoops_subset _ hq) _ (List.mem_of_mem_take hc) _
      (List.mem_of_mem_take hd) hdiffer m (List.mem_filterMap.mpr ⟨s, hs, hm⟩) m'
      (List.mem_filterMap.mpr ⟨t, ht, hm'⟩) (body_of_method hm) (body_of_method hm') hname

theorem kept_of_separate (h : Separate p) :
    Kept p ((sites p.stmts).filterMap Site.method) := by
  refine ⟨fun o ho c hc hwf b hb => ?_, ?_⟩
  · obtain ⟨htop, hcollected, htargeted⟩ := h.seen o ho c hc hwf
    have hcall : c ∈ (sites p.stmts).map Site.call := by
      rw [sites, map_call_openingSites]
      exact List.mem_flatMap.mpr ⟨o, htop, hcollected⟩
    obtain ⟨s, hs, rfl⟩ := List.mem_map.mp hcall
    obtain ⟨f, hf⟩ := Option.isSome_iff_exists.mp ((form_isSome_iff hwf).mpr htargeted)
    obtain ⟨hd, hh, rfl⟩ := Option.map_eq_some_iff.mp hb
    refine List.count_eq_one_of_mem (bodies_nodup p) (List.mem_map.mpr
      ⟨⟨f.pre ++ f.tail s.rank s.set, f.ret, hd.2, hd.1.pnames⟩, ?_, rfl⟩)
    exact List.mem_filterMap.mpr ⟨s, hs, method_eq_some_iff.mpr ⟨f, hd, hf, hh, rfl⟩⟩
  · intro o ho q hq c hc d hd hdiffer m hm m' hm' hcb hdb hname
    obtain ⟨s, hs, hsm⟩ := List.mem_filterMap.mp hm
    obtain ⟨t, ht, htm⟩ := List.mem_filterMap.mp hm'
    have hsb := body_of_method hsm
    have htb := body_of_method htm
    obtain ⟨hmodule, rfl, -⟩ := site_of_body p hs ho hc hsb hcb
    obtain ⟨hmodule', rfl, -⟩ := site_of_body p ht hq hd htb hdb
    rw [← hmodule, ← hmodule'] at hdiffer
    rcases name_eq hs ht hsm htm hname with rfl | ⟨rk, rk', tg, tg', hslot⟩
    · rcases hdiffer with hne | hne | hne | hne <;> exact hne rfl
    · exact h.slots s hs t ht (by rw [hsb]; rfl) (by rw [htb]; rfl) hdiffer rk rk' tg tg' hslot

/-- **Which programs keep their handlers.**  When the pass succeeds, every well-formed handler has
become one method and handlers that differ have methods of different names exactly when the
program's handlers are separate. -/
theorem handlers_kept_iff {env : Option String} {p : Program} {ms : List Method}
    (h : ccSynthesizeReactor env p.stmts = .ok ms) : Kept p ms ↔ Separate p := by
  rw [methods_eq_sites h]
  exact ⟨separate_of_kept, kept_of_separate⟩

/-- `on kind, targets do … end`, with its body's id. -/
def handlerOf (kind : String) (tg : List String) (body : Nat) : OnCall :=
  ⟨.symbol kind :: tg.map .string, some ⟨[], some body⟩⟩

/-- An opening that includes the event loop. -/
def loopModule (name : String) (cs : List OnCall) : Stmt :=
  .module [name] (.mixin ["BPF::EventLoop"] :: cs.map .on)

theorem probes_distinct :
    ((openings [loopModule "A" [handlerOf "kprobe" ["do_exit"] 1, handlerOf "uprobe" ["read"] 2],
      loopModule "A" [handlerOf "kprobe" ["do_fork"] 3],
      loopModule "B" [handlerOf "xdp" ["eth0"] 4]]).flatMap Opening.bodies).Nodup := by
  decide

/-- A module for two probes, opened again for a third, and another one with a packet handler. -/
def probes : Program := ⟨_, probes_distinct⟩

/-- Sites whose methods have different names share no slot. -/
theorem not_sameSlot (hs : s.call.body.isSome) (ht : t.call.body.isSome)
    (h : s.method.map Method.name ≠ t.method.map Method.name) (rk rk' : ReactorKind)
    (tg tg' : List String) : ¬ SameSlot s t rk rk' tg tg' := by
  intro hslot
  obtain ⟨m, m', hm, hm', hname⟩ := hslot.method hs ht
  exact h (by rw [hm, hm', Option.map_some, Option.map_some, hname])

theorem probes_names : ((sites probes.stmts).map fun s => s.method.map Method.name).Nodup := by
  decide +kernel

theorem probes_separate : Separate probes := by
  refine ⟨by decide, fun s hs t ht hsb htb hdiffer => ?_⟩
  refine not_sameSlot hsb htb fun hname => ?_
  have hst : s = t := List.inj_on_of_nodup_map probes_names hs ht hname
  subst hst
  rcases hdiffer with hne | hne | hne | hne <;> exact hne rfl

theorem handlers_kept_probes :
    Kept probes [⟨"kprobe__do_exit", .int, 1, []⟩, ⟨"uprobe__react0", .int, 2, []⟩,
      ⟨"kprobe__do_fork", .int, 3, []⟩, ⟨"xdp__main", .int, 4, []⟩] :=
  (@handlers_kept_iff none probes _ (by decide +kernel)).mpr probes_separate

theorem twoLoops_distinct :
    ((openings [loopModule "A" [handlerOf "xdp" [] 1],
      loopModule "B" [handlerOf "xdp" [] 2]]).flatMap Opening.bodies).Nodup := by
  decide

/-- Two modules with a packet handler each. -/
def twoLoops : Program := ⟨_, twoLoops_distinct⟩

theorem reopened_distinct :
    ((openings [loopModule "A" [], .module ["A"]
      [.on (handlerOf "kprobe" ["do_exit"] 1)]]).flatMap Opening.bodies).Nodup := by
  decide

/-- A module whose handler stands in an opening without the mixin. -/
def reopened : Program := ⟨_, reopened_distinct⟩

theorem crowded_distinct :
    ((openings [loopModule "A" ((List.range 65).map fun i =>
      handlerOf "kprobe" [toString i] i)]).flatMap Opening.bodies).Nodup := by
  decide +kernel

/-- A module with 65 handlers. -/
def crowded : Program := ⟨_, crowded_distinct⟩

/-- A handler whose body makes no method is lost. -/
theorem not_kept {ms : List Method} (ho : o ∈ loops p.stmts) (hc : c ∈ o.calls)
    (hwf : c.wellFormed = true) (hb : c.body = some b) (hlost : b ∉ ms.map Method.bodyId) :
    ¬ Kept p ms := by
  intro h
  have hcount := h.once o ho c hc hwf b hb
  rw [List.count_eq_zero.mpr hlost] at hcount
  cases hcount

/-- Two methods called `xdp__main` come from two modules; the handler of a module opened again is
lost, and so is the last of 65. -/
theorem handlers_lost :
    (∃ m m', ccSynthesizeReactor none twoLoops.stmts = .ok [m, m'] ∧ m.name = "xdp__main" ∧
      m'.name = "xdp__main" ∧ ¬ Kept twoLoops [m, m']) ∧
    (ccSynthesizeReactor none reopened.stmts = .ok [] ∧ ¬ Kept reopened []) ∧
    ∃ ms, ccSynthesizeReactor none crowded.stmts = .ok ms ∧ 64 ∉ ms.map Method.bodyId ∧
      ¬ Kept crowded ms := by
  refine ⟨⟨⟨"xdp__main", .int, 1, []⟩, ⟨"xdp__main", .int, 2, []⟩, by decide +kernel, rfl, rfl,
    fun h => ?_⟩, ⟨rfl, ?_⟩, ?_⟩
  · exact h.named ⟨["A"], true, [handlerOf "xdp" [] 1]⟩ (by decide)
      ⟨["B"], true, [handlerOf "xdp" [] 2]⟩ (by decide) _ List.mem_cons_self _ List.mem_cons_self
      (.inl (by decide)) _ List.mem_cons_self _ (List.mem_cons_of_mem _ List.mem_cons_self)
      rfl rfl rfl
  · exact not_kept (o := ⟨["A"], false, [handlerOf "kprobe" ["do_exit"] 1]⟩) (by decide)
      List.mem_cons_self (by decide) rfl List.not_mem_nil
  · have hlost : 64 ∉ ((List.range 64).map fun i =>
        (⟨"kprobe__" ++ toString i, .int, i, []⟩ : Method)).map Method.bodyId := by
      decide +kernel
    refine ⟨_, ?_, hlost, ?_⟩
    · decide +kernel
    · exact not_kept (topLoops_subset _ List.mem_cons_self)
        (c := handlerOf "kprobe" [toString 64] 64) (by decide +kernel) (by decide +kernel) rfl hlost

end SpinelEbpf.Codegen.Reactor

import SpinelEbpf.Codegen.Methods

/-!
# Codegen — The core fragment

Methods over integers without calls, loops or assignments inside expressions (`Method.isCore`).
Their generated code does what they do (`core_preserved`) when no two of their locals share a C
name and no `@x op= if …` assigns `@x` in a branch.  The first can fail because a keyword is made
a name by appending an underscore (`keyword_clash`).
-/

namespace SpinelEbpf.Codegen
open Outcome

/-- `+ - * & | ^`. -/
def BinOp.arith : BinOp → Bool
  | .add | .sub | .mul | .band | .bor | .bxor => true
  | _ => false

/-- An arithmetic expression. -/
def coreExpr : Node → Bool
  | .int _ | .lvar _ | .ivar _ => true
  | .binop op l r => op.arith && coreExpr l && coreExpr r
  | .paren [n] => coreExpr n
  | _ => false

/-- A predicate: comparisons, joined by `&&` and `||`. -/
def corePred : Node → Bool
  | .binop op l r => op.comparison && coreExpr l && coreExpr r
  | .and l r | .or l r => corePred l && corePred r
  | .paren [n] => corePred n
  | _ => false

mutual

/-- A statement; an `if` may also be the whole right-hand side of an assignment. -/
def coreStmt : Node → Bool
  | .lwrite _ v | .iwrite _ v => coreRhs v
  | .iopwrite _ op v => (op == .add || op == .sub || op == .mul) && coreRhs v
  | .ret [] => true
  | .ret [v] => coreExpr v
  | .ifNode p t e => corePred p && coreAll t && coreAll e
  | .emit v => coreExpr v
  | n => coreExpr n

def coreRhs : Node → Bool
  | .ifNode p t e => corePred p && coreAll t && coreAll e
  | n => coreExpr n

def coreAll : List Node → Bool
  | []      => true
  | n :: ns => coreStmt n && coreAll ns

end

/-- Where an instance variable is assigned in the right-hand side of its own `op=`. -/
def clobber : Node → List String
  | .iopwrite x _ v => if x ∈ collect ivarWrite v then [x] else []
  | _ => []

def Method.isCore (m : Method) : Bool := coreAll m.body

/-- Every local read is a parameter or assigned in the method; Ruby takes other names for calls. -/
def Method.Scoped (m : Method) : Prop := ∀ x ∈ collectAll localRef m.body, x ∈ m.names

/-! ### Quiet nodes -/

mutual

/-- A node without effect assigns and calls nothing. -/
theorem quiet_collect {α : Type} {f : Node → List α}
    (hf : ∀ n, quiet n = true → f n = []) :
    ∀ n : Node, quiet n = true → collect f n = []
  | .int _, hq | .lvar _, hq | .ivar _, hq => hf _ hq
  | .binop _ l r, hq | .and l r, hq | .or l r, hq => by
      have hfn := hf _ hq
      obtain ⟨hl, hr⟩ := Bool.and_eq_true_iff.mp hq
      simp [collect, hfn, quiet_collect hf l hl, quiet_collect hf r hr]
  | .paren body, hq => by
      simp [collect, hf _ hq, quiet_collectAll hf body hq]
  | .ifNode p t e, hq => by
      have hfn := hf _ hq
      obtain ⟨hpt, he⟩ := Bool.and_eq_true_iff.mp hq
      obtain ⟨hp, ht⟩ := Bool.and_eq_true_iff.mp hpt
      simp [collect, hfn, quiet_collect hf p hp, quiet_collectAll hf t ht,
        quiet_collectAll hf e he]

theorem quiet_collectAll {α : Type} {f : Node → List α}
    (hf : ∀ n, quiet n = true → f n = []) :
    ∀ ns : List Node, quietAll ns = true → collectAll f ns = []
  | [], _ => rfl
  | n :: ns, hq => by
      obtain ⟨hn, hns⟩ := Bool.and_eq_true_iff.mp hq
      simp [collectAll, quiet_collect hf n hn, quiet_collectAll hf ns hns]

end

theorem quiet_isCall {n : Node} (hq : quiet n = true) : isCall n = false := by
  cases n <;> first | rfl | exact nomatch hq

theorem quiet_writes {n : Node} (hq : quiet n = true) :
    collect localWrite n = [] ∧ collect ivarWrite n = [] ∧ collect callSite n = [] := by
  refine ⟨quiet_collect (fun m hm => ?_) n hq, quiet_collect (fun m hm => ?_) n hq,
    quiet_collect (fun m hm => ?_) n hq⟩
  · cases m <;> first | rfl | exact nomatch hm
  · cases m <;> first | rfl | exact nomatch hm
  · cases m <;> first | rfl | exact nomatch hm

mutual

/-- A node without effect, over locals in scope, passes the check. -/
theorem quiet_ok {d : Nat → Bool} {ctx : Ctx} {sc : Scope} : ∀ (n : Node) {u : Use},
    quiet n = true → (∀ x ∈ collect localRef n, sc.sees ctx x = true) → ok d ctx sc u n = true
  | .int _, _, _, _ | .ivar _, _, _, _ => rfl
  | .lvar x, _, _, hs => hs x (by simp [collect, localRef])
  | .binop _ l r, _, hq, hs | .and l r, _, hq, hs | .or l r, _, hq, hs => by
      obtain ⟨hl, hr⟩ := Bool.and_eq_true_iff.mp hq
      rw [ok, Bool.and_eq_true]
      exact ⟨quiet_ok l hl fun x hx => hs x (by simp [collect, hx]),
        quiet_ok r hr fun x hx => hs x (by simp [collect, hx])⟩
  | .paren body, _, hq, hs => by
      obtain ⟨hcall, hok⟩ := quietAll_ok body hq fun x hx => hs x (by simp [collect, hx])
      exact ok_paren.mpr ⟨hcall, hok⟩
  | .ifNode p t e, _, hq, hs => by
      simp only [quiet, Bool.and_eq_true] at hq
      exact ok_if.mpr ⟨quiet_ok p hq.1.1 fun x hx => hs x (by simp [collect, hx]),
        (quietAll_ok t hq.1.2 fun x hx => hs x (by simp [collect, hx])).2,
        (quietAll_ok e hq.2 fun x hx => hs x (by simp [collect, hx])).2⟩

theorem quietAll_ok {d : Nat → Bool} {ctx : Ctx} {sc : Scope} : ∀ (ns : List Node)
    {used kept : Bool}, quietAll ns = true → (∀ x ∈ collectAll localRef ns, sc.sees ctx x = true) →
    endsInCall ns = false ∧ okAll d ctx sc used kept ns = true
  | [], _, _, _, _ => ⟨rfl, rfl⟩
  | [n], _, _, hq, hs => by
      have hn := (Bool.and_eq_true_iff.mp hq).1
      exact ⟨quiet_isCall hn, quiet_ok n hn fun x hx => hs x (by simp [collectAll, hx])⟩
  | n :: m :: ns, _, _, hq, hs => by
      obtain ⟨hn, hns⟩ := Bool.and_eq_true_iff.mp hq
      obtain ⟨hcall, hok⟩ := quietAll_ok (m :: ns) hns fun x hx =>
        hs x (List.mem_append_right _ hx)
      exact ⟨hcall, okAll_cons.mpr ⟨quiet_ok n hn fun x hx => hs x (List.mem_append_left _ hx), hok⟩⟩

end

/-! ### Numbers -/

/-- Variables hold numbers. -/
structure RState.Numeric (σ : RState) : Prop where
  locals : ∀ x, (σ.locals x).numeric = true
  ivars : ∀ x, (σ.ivars x).numeric = true

/-- An update by a number. -/
theorem numeric_update {f : String → Value} (hf : ∀ y, (f y).numeric = true) (x : String) {v : Value}
    (hv : v.numeric = true) (y : String) : (Function.update f x v y).numeric = true := by
  by_cases hy : y = x
  · rw [hy, Function.update_self, hv]
  · rw [Function.update_of_ne hy, hf y]

theorem bindParams_numeric (params : List String) (args : List Word) (x : String) :
    (bindParams params args x).numeric = true := by
  unfold bindParams
  split <;> rfl

/-- A run that ends with numbers in the variables, and with a number if it comes to a value. -/
def Numerical (r : Outcome RExit Value × RState) : Prop :=
  r.2.Numeric ∧ ∀ v, r.1 = .ok v → v.numeric = true

theorem Numerical.andThen {r : Outcome RExit Value × RState}
    {k : Value → RState → Outcome RExit Value × RState} (hr : Numerical r)
    (hk : ∀ v σ, v.numeric = true → σ.Numeric → Numerical (k v σ)) :
    Numerical (Outcome.andThen r k) := by
  obtain ⟨v | e, σ⟩ := r
  · exact hk v σ (hr.2 v rfl) hr.1
  · exact ⟨hr.1, nofun⟩

variable {op : BinOp}

theorem BinOp.sameAt_exact (hop : op.exact = true) {a b : Value}
    (ha : a.numeric = true) (hb : b.numeric = true) : op.SameAt a b := by
  refine .inl ⟨ha, hb, ?_⟩
  cases op <;> trivial

/-! ### The fragment passes the check -/

theorem BinOp.arith_exact (h : op.arith = true) :
    op.exact = true ∧ op.comparison = false := by
  cases op <;> first | exact ⟨rfl, rfl⟩ | exact nomatch h

theorem BinOp.comparison_exact (h : op.comparison = true) : op.exact = true := by
  cases op <;> first | rfl | exact nomatch h

section

variable {h : Host} {slot : Slot} {d : Nat → Bool} {ctx : Ctx} {sc : Scope} {l r n : Node}
  {num : Bool}

/-- An expression without effect that is read alike from every state of numbers, as a number or as
a boolean. -/
structure QuietOk (h : Host) (slot : Slot) (num : Bool) (n : Node) : Prop where
  quiet : quiet n = true
  alike : ∀ σ, σ.Numeric → ReadsAlike h slot n σ ∧
    ∃ v, eval h n σ = (.ok v, σ) ∧ v.numeric = num

namespace QuietOk

theorem binop (hop : op.exact = true) (hl : QuietOk h slot true l)
    (hr : QuietOk h slot true r) : QuietOk h slot (!op.comparison) (.binop op l r) where
  quiet := by simp [Codegen.quiet, hl.quiet, hr.quiet]
  alike σ hσ := by
    obtain ⟨hal, a, ha, hna⟩ := hl.alike σ hσ
    obtain ⟨har, b, hb, hnb⟩ := hr.alike σ hσ
    obtain ⟨v, hv, _, hnv⟩ := BinOp.ruby_exact hop hna hnb
    exact ⟨.binop ha hb (BinOp.sameAt_exact hop hna hnb) hal har, v, eval_binop ha hb hv, hnv⟩

theorem and (hl : QuietOk h slot false l) (hr : QuietOk h slot false r) :
    QuietOk h slot false (.and l r) where
  quiet := by simp [Codegen.quiet, hl.quiet, hr.quiet]
  alike σ hσ := by
    obtain ⟨hal, a, ha, hna⟩ := hl.alike σ hσ
    obtain ⟨har, b, hb, hnb⟩ := hr.alike σ hσ
    refine ⟨⟨hal, fun a' σ₁ ha' => ?_⟩, if a.truthy then b else a, ?_, ?_⟩
    · obtain ⟨⟨rfl⟩, rfl⟩ := Prod.mk.inj (ha'.symm.trans ha)
      refine ⟨hna, fun _ => hr.quiet, fun _ => ⟨har, fun b' σ₂ hb' => ?_⟩⟩
      obtain ⟨⟨rfl⟩, rfl⟩ := Prod.mk.inj (hb'.symm.trans hb)
      exact ⟨hnb, .refl _ _ _⟩
    · cases ht : a.truthy <;> simp [eval, ha, hb, ht]
    · split
      · exact hnb
      · exact hna

theorem or (hl : QuietOk h slot false l) (hr : QuietOk h slot false r) :
    QuietOk h slot false (.or l r) where
  quiet := by simp [Codegen.quiet, hl.quiet, hr.quiet]
  alike σ hσ := by
    obtain ⟨hal, a, ha, hna⟩ := hl.alike σ hσ
    obtain ⟨har, b, hb, hnb⟩ := hr.alike σ hσ
    refine ⟨⟨hal, fun a' σ₁ ha' => ?_⟩, if a.truthy then a else b, ?_, ?_⟩
    · obtain ⟨⟨rfl⟩, rfl⟩ := Prod.mk.inj (ha'.symm.trans ha)
      refine ⟨hna, fun _ => hr.quiet, fun _ => ⟨har, fun b' σ₂ hb' => ?_⟩⟩
      obtain ⟨⟨rfl⟩, rfl⟩ := Prod.mk.inj (hb'.symm.trans hb)
      exact ⟨hnb, .refl _ _ _⟩
    · cases ht : a.truthy <;> simp [eval, ha, hb, ht]
    · split
      · exact hna
      · exact hnb

theorem paren (hn : QuietOk h slot num n) : QuietOk h slot num (.paren [n]) where
  quiet := by simp [Codegen.quiet, quietAll, hn.quiet]
  alike σ hσ := by
    obtain ⟨hal, hv⟩ := hn.alike σ hσ
    exact ⟨⟨hal, fun _ _ _ => trivial⟩, hv⟩

end QuietOk

theorem coreExpr_ok : ∀ n : Node, coreExpr n = true → QuietOk h slot true n
  | .int _, _ => ⟨rfl, fun _ _ => ⟨trivial, _, rfl, rfl⟩⟩
  | .ivar x, _ => ⟨rfl, fun _ hσ => ⟨trivial, _, rfl, hσ.ivars x⟩⟩
  | .lvar x, _ => ⟨rfl, fun _ hσ => ⟨trivial, _, rfl, hσ.locals x⟩⟩
  | .binop op l r, hc => by
      obtain ⟨hopl, hr⟩ := Bool.and_eq_true_iff.mp hc
      obtain ⟨hop, hl⟩ := Bool.and_eq_true_iff.mp hopl
      obtain ⟨hexact, hcmp⟩ := BinOp.arith_exact hop
      rw [← Bool.not_false, ← hcmp]
      exact .binop hexact (coreExpr_ok l hl) (coreExpr_ok r hr)
  | .paren [n], hc => (coreExpr_ok n hc).paren

theorem corePred_ok : ∀ n : Node, corePred n = true → QuietOk h slot false n
  | .binop op l r, hc => by
      obtain ⟨hopl, hr⟩ := Bool.and_eq_true_iff.mp hc
      obtain ⟨hop, hl⟩ := Bool.and_eq_true_iff.mp hopl
      rw [← Bool.not_true, ← hop]
      exact .binop (BinOp.comparison_exact hop) (coreExpr_ok l hl) (coreExpr_ok r hr)
  | .and l r, hc =>
      .and (corePred_ok l (Bool.and_eq_true_iff.mp hc).1)
        (corePred_ok r (Bool.and_eq_true_iff.mp hc).2)
  | .or l r, hc =>
      .or (corePred_ok l (Bool.and_eq_true_iff.mp hc).1)
        (corePred_ok r (Bool.and_eq_true_iff.mp hc).2)
  | .paren [n], hc => (corePred_ok n hc).paren

/-- What the statements of the fragment rest on: names in scope, and no `op=` that assigns its own
variable on the right. -/
structure CoreScope (ctx : Ctx) (sc : Scope) (ns : List Node) : Prop where
  sees : ∀ x ∈ collectAll localRef ns, sc.sees ctx x = true
  apart : collectAll clobber ns = []
  method : sc.callback = false

namespace CoreScope

variable {n : Node} {ms ns : List Node}

theorem child (h : CoreScope ctx sc [n]) (hm : ms ∈ children n) : CoreScope ctx sc ms where
  sees x hx := h.sees x (collectAll_children _ hm hx)
  apart := List.subset_nil.mp (h.apart ▸ collectAll_children clobber hm)
  method := h.method

theorem head (h : CoreScope ctx sc (n :: ns)) : CoreScope ctx sc [n] where
  sees x hx := h.sees x (by simp_all [collectAll])
  apart := by simpa [collectAll] using (List.append_eq_nil_iff.mp h.apart).1
  method := h.method

theorem tail (h : CoreScope ctx sc (n :: ns)) : CoreScope ctx sc ns where
  sees x hx := h.sees x (by simp_all [collectAll])
  apart := (List.append_eq_nil_iff.mp h.apart).2
  method := h.method

theorem node (h : CoreScope ctx sc [n]) {x : String} (hx : x ∈ collect localRef n) :
    sc.sees ctx x = true :=
  h.sees x (by simpa [collectAll] using hx)

end CoreScope

/-- A node that calls nothing, passes the check in any of the uses, and from every state of numbers
is read alike and runs over numbers. -/
structure CoreOk (h : Host) (slot : Slot) (d : Nat → Bool) (ctx : Ctx) (sc : Scope)
    (uses : Use → Prop) (n : Node) : Prop where
  sites : collect callSite n = []
  ok : ∀ u, uses u → ok d ctx sc u n = true
  alike : ∀ σ, σ.Numeric → ReadsAlike h slot n σ
  run : ∀ σ, σ.Numeric → Numerical (eval h n σ)

/-- The same of statements. -/
structure CoreOkAll (h : Host) (slot : Slot) (d : Nat → Bool) (ctx : Ctx) (sc : Scope)
    (ns : List Node) : Prop where
  sites : collectAll callSite ns = []
  ok : ∀ used kept, okAll d ctx sc used kept ns = true
  alike : ∀ σ, σ.Numeric → ReadsAlikeAll h slot ns σ
  run : ∀ σ, σ.Numeric → Numerical (evalAll h ns σ)

theorem coreExpr_coreOk (hc : coreExpr n = true) (hs : CoreScope ctx sc [n]) (uses : Use → Prop) :
    CoreOk h slot d ctx sc uses n := by
  have hq : QuietOk h slot true n := coreExpr_ok n hc
  refine ⟨(quiet_writes hq.quiet).2.2, fun u _ => quiet_ok n hq.quiet fun x => hs.node,
    fun σ hσ => (hq.alike σ hσ).1, fun σ hσ => ?_⟩
  obtain ⟨_, v, hv, hnum⟩ := hq.alike σ hσ
  rw [hv]
  exact ⟨hσ, fun _ he => Outcome.ok.inj he ▸ hnum⟩

theorem if_coreOk {p : Node} {t e : List Node} (hp : corePred p = true)
    (hs : CoreScope ctx sc [.ifNode p t e]) (ht : CoreOkAll h slot d ctx sc t)
    (he : CoreOkAll h slot d ctx sc e) (uses : Use → Prop) :
    CoreOk h slot d ctx sc uses (.ifNode p t e) := by
  have hsp : CoreScope ctx sc [p] := hs.child (by simp [children])
  have hq : QuietOk h slot false p := corePred_ok p hp
  refine ⟨?_, fun u _ => ok_if.mpr ⟨quiet_ok p hq.quiet fun x => hsp.node, ht.ok _ _, he.ok _ _⟩,
    fun σ hσ => ?_, fun σ hσ => ?_⟩
  · simp [collect, callSite, (quiet_writes hq.quiet).2.2, ht.sites, he.sites]
  · obtain ⟨hal, a, ha, hna⟩ := hq.alike σ hσ
    refine ⟨hal, fun a' σ₁ ha' => ?_⟩
    obtain ⟨⟨rfl⟩, rfl⟩ := Prod.mk.inj (ha'.symm.trans ha)
    exact ⟨hna, fun _ => ht.alike _ hσ, fun _ => he.alike _ hσ⟩
  · obtain ⟨_, a, ha, _⟩ := hq.alike σ hσ
    rw [eval, ha, andThen_ok]
    split
    · exact ht.run σ hσ
    · exact he.run σ hσ

theorem iopwrite_coreOk {x : String} {v : Node} (hop : op.exact = true)
    (hcmp : op.comparison = false) (hx : x ∉ collect ivarWrite v)
    (hv : CoreOk h slot d ctx sc (fun _ => True) v) :
    CoreOk h slot d ctx sc (·.pos = .stmt) (.iopwrite x op v) := by
  refine ⟨by simp [collect, callSite, hv.sites], fun u hu => ok_iopwrite.mpr ⟨hu, hv.ok _ trivial⟩,
    fun σ hσ => ⟨hv.alike σ hσ, fun b σ₁ hb => ⟨?_, ?_⟩⟩, fun σ hσ => ?_⟩
  · have hrun := hv.run σ hσ
    rw [hb] at hrun
    exact BinOp.sameAt_exact hop (hσ.ivars x) (hrun.2 b rfl)
  · have hsame := eval_ivars h hx hv.sites σ
    rw [hb] at hsame
    rw [hsame]
  · rw [eval]
    refine (hv.run σ hσ).andThen fun b σ₁ hb hσ₁ => ?_
    obtain ⟨z, hz, _, hnz⟩ := BinOp.ruby_exact hop (hσ.ivars x) hb
    rw [hcmp] at hnz
    simp only [applyOp, hz]
    exact ⟨⟨hσ₁.locals, numeric_update hσ₁.ivars x hnz⟩, fun _ he => Outcome.ok.inj he ▸ hnz⟩

mutual

/-- **Statements of the fragment pass the check and run over numbers.** -/
theorem coreStmt_ok : ∀ n : Node, coreStmt n = true → CoreScope ctx sc [n] →
    CoreOk h slot d ctx sc (·.pos = .stmt) n
  | .int _, hc, hs | .lvar _, hc, hs | .ivar _, hc, hs | .binop .., hc, hs | .paren _, hc, hs =>
      coreExpr_coreOk hc hs _
  | .lwrite x v, hc, hs => by
      have hv := coreRhs_ok v hc (hs.child (by simp [children]))
      refine ⟨by simp [collect, callSite, hv.sites], fun u hu =>
        ok_lwrite.mpr ⟨hu, hs.node (by simp [collect, localRef]), hv.ok _ trivial⟩, hv.alike,
        fun σ hσ => ?_⟩
      rw [eval]
      exact (hv.run σ hσ).andThen fun a σ₁ ha hσ₁ =>
        ⟨⟨numeric_update hσ₁.locals x ha, hσ₁.ivars⟩, fun _ he => Outcome.ok.inj he ▸ ha⟩
  | .iwrite x v, hc, hs => by
      have hv := coreRhs_ok v hc (hs.child (by simp [children]))
      refine ⟨by simp [collect, callSite, hv.sites], fun u hu =>
        ok_iwrite.mpr ⟨hu, hv.ok _ trivial⟩, hv.alike, fun σ hσ => ?_⟩
      rw [eval]
      exact (hv.run σ hσ).andThen fun a σ₁ ha hσ₁ =>
        ⟨⟨hσ₁.locals, numeric_update hσ₁.ivars x ha⟩, fun _ he => Outcome.ok.inj he ▸ ha⟩
  | .iopwrite x op v, hc, hs => by
      obtain ⟨hop, hcv⟩ := Bool.and_eq_true_iff.mp hc
      have hx : x ∉ collect ivarWrite v := by
        intro hmem
        simpa [collectAll, collect, clobber, hmem] using hs.apart
      have harith : op.exact = true ∧ op.comparison = false := by
        cases op <;> first | exact ⟨rfl, rfl⟩ | exact nomatch hop
      exact iopwrite_coreOk harith.1 harith.2 hx (coreRhs_ok v hcv (hs.child (by simp [children])))
  | .ret [], _, hs =>
      ⟨rfl, fun _ hu => ok_ret_nil.mpr ⟨hu, hs.method⟩, fun _ _ => trivial, fun _ hσ => ⟨hσ, nofun⟩⟩
  | .ret [v], hc, hs => by
      have hv : CoreOk h slot d ctx sc (fun _ => True) v :=
        coreExpr_coreOk hc (hs.child (by simp [children])) _
      refine ⟨by simp [collect, collectAll, callSite, hv.sites], fun _ hu =>
        ok_ret.mpr ⟨hu, hs.method, hv.ok _ trivial⟩,
        fun σ hσ => ⟨hv.alike σ hσ, fun _ _ _ => trivial⟩, fun σ hσ => ?_⟩
      rw [eval, evalAll]
      exact (hv.run σ hσ).andThen fun _ _ _ hσ₁ => ⟨hσ₁, nofun⟩
  | .ifNode p t e, hc, hs => by
      obtain ⟨hpt, he⟩ := Bool.and_eq_true_iff.mp hc
      obtain ⟨hp, ht⟩ := Bool.and_eq_true_iff.mp hpt
      exact if_coreOk hp hs (coreAll_ok t ht (hs.child (by simp [children])))
        (coreAll_ok e he (hs.child (by simp [children]))) _
  | .emit v, hc, hs => by
      have hv : CoreOk h slot d ctx sc (fun _ => True) v :=
        coreExpr_coreOk hc (hs.child (by simp [children])) _
      refine ⟨by simp [collect, callSite, hv.sites], fun _ hu =>
        ok_emit.mpr ⟨hu, hv.ok _ trivial⟩, hv.alike, fun σ hσ => ?_⟩
      rw [eval]
      exact (hv.run σ hσ).andThen fun _ _ _ hσ₁ =>
        ⟨⟨hσ₁.locals, hσ₁.ivars⟩, fun _ he => Outcome.ok.inj he ▸ rfl⟩

theorem coreRhs_ok : ∀ n : Node, coreRhs n = true → CoreScope ctx sc [n] →
    CoreOk h slot d ctx sc (fun _ => True) n
  | .int _, hc, hs | .lvar _, hc, hs | .ivar _, hc, hs | .binop .., hc, hs | .paren _, hc, hs =>
      coreExpr_coreOk hc hs _
  | .ifNode p t e, hc, hs => by
      obtain ⟨hpt, he⟩ := Bool.and_eq_true_iff.mp hc
      obtain ⟨hp, ht⟩ := Bool.and_eq_true_iff.mp hpt
      exact if_coreOk hp hs (coreAll_ok t ht (hs.child (by simp [children])))
        (coreAll_ok e he (hs.child (by simp [children]))) _

theorem coreAll_ok : ∀ ns : List Node, coreAll ns = true → CoreScope ctx sc ns →
    CoreOkAll h slot d ctx sc ns
  | [], _, _ => ⟨rfl, fun _ _ => rfl, fun _ _ => trivial,
      fun _ hσ => ⟨hσ, fun _ he => Outcome.ok.inj he ▸ rfl⟩⟩
  | [n], hc, hs => by
      have hn := coreStmt_ok n (Bool.and_eq_true_iff.mp hc).1 hs
      exact ⟨by simp [collectAll, hn.sites], fun _ _ => hn.ok _ rfl,
        fun σ hσ => ⟨hn.alike σ hσ, fun _ _ _ => trivial⟩, hn.run⟩
  | n :: m :: ns, hc, hs => by
      obtain ⟨hcn, hcns⟩ := Bool.and_eq_true_iff.mp hc
      have hn := coreStmt_ok n hcn hs.head
      have hns := coreAll_ok (m :: ns) hcns hs.tail
      refine ⟨?_, fun used kept => okAll_cons.mpr ⟨hn.ok _ rfl, hns.ok _ _⟩,
        fun σ hσ => ⟨hn.alike σ hσ, fun a σ₁ ha => hns.alike σ₁ ?_⟩, fun σ hσ => ?_⟩
      · rw [collectAll, hn.sites, hns.sites, List.append_nil]
      · have hrun := hn.run σ hσ
        rw [ha] at hrun
        exact hrun.1
      · exact (hn.run σ hσ).andThen fun _ σ₁ _ hσ₁ => hns.run σ₁ hσ₁

end

end

/-! ### The whole method -/

/-- **The core fragment keeps its meaning.**  For every arguments and instance variables the
generated function emits the same values in the same order, leaves the same instance variables
and returns the same value, whether the maps keep them in place or not. -/
theorem core_preserved {m : Method} {mapPrefix : String} {code : List CStmt} {args : List Word}
    {ivars : String → Value} {maps : String → Word} (callee : Behaviour) (ch : CHost) (slot : Slot)
    (frame : CVar → Word) (hcore : m.isCore = true) (hscoped : m.Scoped)
    (hcode : emitMethodBody m mapPrefix = .ok code) (hnames : m.NamesApart)
    (hop : collectAll clobber m.body = []) (hargs : args.length = m.params.length)
    (hnum : ∀ x, (ivars x).numeric = true)
    (hmaps : ∀ x, maps ((m.ctx mapPrefix).ivarMap x) = (ivars x).word) :
    Agrees m (m.ctx mapPrefix) (m.call (.ruby callee) args ivars)
      (callC ch slot code m.params args maps frame) := by
  have hs : CoreScope (m.ctx mapPrefix) (m.scope false slot) m.body := by
    refine ⟨fun x hx => ?_, hop, rfl⟩
    simp [Scope.sees, Method.ctx, Method.scope, hscoped x hx]
  have hok : CoreOkAll (.ruby callee) slot (Host.ruby callee).omits (m.ctx mapPrefix)
      (m.scope false slot) m.body :=
    coreAll_ok m.body hcore hs
  exact method_sim frame hcode (hok.ok _ _)
    (hok.alike _ ⟨bindParams_numeric m.params args, hnum⟩) hnames (by simp) hargs hmaps

/-! ### Two methods -/

/-- The values emitted. -/
def emitted (trace : List Event) : List Word :=
  trace.filterMap fun
    | .emit w => some w
    | _       => none

/-- `def f(n); x = if n > 2 then n + 1 else 0 end; @s += x; spnl_emit(x); @s; end`. -/
def sumMethod : Method where
  params := ["n"]
  body := [.lwrite "x" (.ifNode (.binop .gt (.lvar "n") (.int 2))
      [.binop .add (.lvar "n") (.int 1)] [.int 0]),
    .iopwrite "s" .add (.lvar "x"), .emit (.lvar "x"), .ivar "s"]
  void := false

theorem core_preserved_sum :
    sumMethod.isCore = true ∧
    Agrees sumMethod (sumMethod.ctx "iv_")
      (sumMethod.call (.ruby idleCallees) [5#64] fun _ => .int 7#64)
      (callC idleFunctions .array
        ((emitMethodBody sumMethod "iv_").toOption.getD []) sumMethod.params [5#64]
        (fun _ => 7#64) fun _ => 0#64) :=
  ⟨by decide, core_preserved _ _ _ _ (by decide) (by unfold Method.Scoped; decide) rfl (by decide)
    (by decide) rfl (fun _ => rfl) fun _ => rfl⟩

/-- `def f; int = 1; int_ = 2; spnl_emit(int); end`. -/
def keywordMethod : Method where
  params := []
  body := [.lwrite "int" (.int 1), .lwrite "int_" (.int 2), .emit (.lvar "int")]
  void := true

/-- **Two locals with one name in C.**  `int` is a keyword and becomes `int_`, which is the other
local; the value emitted is that of the other. -/
theorem keyword_clash :
    keywordMethod.isCore = true ∧ collectAll clobber keywordMethod.body = [] ∧
    emitMethodBody keywordMethod "iv_" = .ok [.decl (.user "int_") (.int 0),
      .assign "int_" (.int 1), .assign "int_" (.int 2), .emit 1 (.var (.user "int_"))] ∧
    emitted (keywordMethod.call (.ruby idleCallees) [] fun _ => .nil).2.trace =
      [1#64] ∧
    emitted (callC idleFunctions .array [.decl (.user "int_") (.int 0),
      .assign "int_" (.int 1), .assign "int_" (.int 2), .emit 1 (.var (.user "int_"))] [] []
      (fun _ => 0#64) fun _ => 0#64).2.trace = [2#64] := by
  refine ⟨by decide, by decide, rfl, by decide, by decide⟩

/-- `def f; @x += if @x < 9 then @x = 5; 1 end; end`. -/
def clobberMethod : Method where
  params := []
  body := [.iopwrite "x" .add (.ifNode (.binop .lt (.ivar "x") (.int 9))
    [.iwrite "x" (.int 5), .int 1] [])]
  void := true

/-- **`op=` reads its variable late.**  Ruby adds to the value before the branch assigned it, C to
the value after. -/
theorem op_assign_reads_late :
    clobberMethod.isCore = true ∧ clobberMethod.NamesApart ∧
    (clobberMethod.call (.ruby idleCallees) [] fun _ => .int 0#64).2.ivars "x" =
      .int 1#64 ∧
    (callC idleFunctions .array
      ((emitMethodBody clobberMethod "iv_").toOption.getD []) [] []
      (fun _ => 0#64) fun _ => 0#64).2.maps "iv_x" = 6#64 :=
  ⟨by decide, by decide, by decide, by decide⟩

end SpinelEbpf.Codegen

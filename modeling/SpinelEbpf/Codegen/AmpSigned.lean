import SpinelEbpf.Codegen.AmpFragment

/-!
# Codegen — Signed integers on the AMP target

A word of the carveout is unsigned, so the generated C has every value right modulo 2^32, and a
negative one wrong as soon as it is widened to 64 bits or put in order.  Where everything a run
computes is `Fine`, the C takes Ruby's branches and emits Ruby's values (`amp_preserved`).
Emitting a negative instance variable is enough to break this (`negative_ivar_emitted`).

The simulation is by one lemma per line of C (`AmpRel`, `Ran`), put together over the source by
`sim_node`, `sim_predicate` and `sim_all`.
-/

namespace SpinelEbpf.Codegen
open Function Outcome

/-! ### The two states -/

/-- The value that a run sends. -/
def AmpEvent.sent : AmpEvent → Option Word
  | .emit w   => some w
  | .branch _ => none

/-- A variable holds in `c'` what it holds in `c`. -/
def Var.Same (ctx : AmpCtx) (c c' : AmpState) : Var → Prop
  | .loc x  => c'.locals (safeDup x) = c.locals (safeDup x)
  | .ivar x => c'.words (ctx.slot x) = c.words (ctx.slot x)

/-- No two variables share a place in C. -/
structure Places (ctx : AmpCtx) (scope : List Var) : Prop where
  loc : ∀ x y, .loc x ∈ scope → .loc y ∈ scope → safeDup x = safeDup y → x = y
  ivar : ∀ x y, .ivar x ∈ scope → .ivar y ∈ scope → ctx.slot x = ctx.slot y → x = y

/-- The state of the source and that of the C code: instance variables modulo 2^32. -/
structure AmpRel (ctx : AmpCtx) (scope : List Var) (σ : RState) (c : AmpState) : Prop where
  locals : ∀ x, .loc x ∈ scope → c.locals (safeDup x) = (σ.locals x).word
  words : ∀ x, .ivar x ∈ scope → c.words (ctx.slot x) = (σ.ivars x).word.setWidth 32
  emits : c.trace.filterMap AmpEvent.sent = emitted σ.trace
  numLocals : ∀ x, (σ.locals x).numeric = true
  numIvars : ∀ x, (σ.ivars x).numeric = true

/-- The variables of `K` and the temporaries up to `k` hold the same. -/
structure AmpAgree (ctx : AmpCtx) (K : Var → Prop) (k : Nat) (c c' : AmpState) : Prop where
  vars : ∀ y, K y → y.Same ctx c c'
  tmps : ∀ i ≤ k, c'.tmps i = c.tmps i

namespace AmpAgree

variable {ctx : AmpCtx} {K K' : Var → Prop} {k k' : Nat} {c c₁ c₂ : AmpState}

theorem refl (c : AmpState) : AmpAgree ctx K k c c :=
  ⟨fun y _ => by cases y <;> rfl, fun _ _ => rfl⟩

theorem trans (h₁ : AmpAgree ctx K k c c₁) (h₂ : AmpAgree ctx K k c₁ c₂) :
    AmpAgree ctx K k c c₂ := by
  refine ⟨fun y hy => ?_, fun i hi => (h₂.tmps i hi).trans (h₁.tmps i hi)⟩
  cases y with
  | loc x => exact (h₂.vars _ hy).trans (h₁.vars _ hy)
  | ivar x => exact (h₂.vars _ hy).trans (h₁.vars _ hy)

theorem mono (h : AmpAgree ctx K k c c₁) (hK : ∀ y, K' y → K y) (hk : k' ≤ k) :
    AmpAgree ctx K' k' c c₁ :=
  ⟨fun y hy => h.vars y (hK y hy), fun i hi => h.tmps i (hi.trans hk)⟩

theorem log (c : AmpState) (e : AmpEvent) : AmpAgree ctx K k c (c.log e) :=
  ⟨fun y _ => by cases y <;> rfl, fun _ _ => rfl⟩

/-- A temporary above `k` is set. -/
theorem setTmp (c : AmpState) {n : Nat} (hn : k < n) (w : Word) :
    AmpAgree ctx K k c { c with tmps := update c.tmps n w } :=
  ⟨fun y _ => by cases y <;> rfl, fun _ hi => update_of_ne (by omega) _ _⟩

end AmpAgree

/-- The variables that are in scope and not `changed`. -/
def Off (scope changed : List Var) (y : Var) : Prop := y ∈ scope ∧ y ∉ changed

variable {scope changed : List Var} {x : String} {v : Value} {op : BinOp} {full : Bool}
  {ms : List Method} {m : Method}

theorem Off.mono {changed' : List Var} (h : changed ⊆ changed') {y : Var}
    (hy : Off scope changed' y) : Off scope changed y := ⟨hy.1, fun hmem => hy.2 (h hmem)⟩

namespace AmpRel

variable {ctx : AmpCtx} {σ : RState} {c : AmpState}

theorem setTmp (hr : AmpRel ctx scope σ c) (n : Nat) (w : Word) :
    AmpRel ctx scope σ { c with tmps := update c.tmps n w } :=
  ⟨hr.locals, hr.words, hr.emits, hr.numLocals, hr.numIvars⟩

theorem branch (hr : AmpRel ctx scope σ c) (b : Bool) : AmpRel ctx scope σ (c.log (.branch b)) :=
  ⟨hr.locals, hr.words, by simpa [AmpState.log, AmpEvent.sent, List.filterMap_cons] using hr.emits,
    hr.numLocals, hr.numIvars⟩

theorem emit (hr : AmpRel ctx scope σ c) (w : Word) :
    AmpRel ctx scope (σ.log (.emit w)) (c.log (.emit w)) :=
  ⟨hr.locals, hr.words, by simp [AmpState.log, AmpEvent.sent, hr.emits, emitted], hr.numLocals,
    hr.numIvars⟩

theorem setLocal (hr : AmpRel ctx scope σ c) (hp : Places ctx scope) (hx : .loc x ∈ scope)
    (hv : v.numeric = true) :
    AmpRel ctx scope (σ.setLocal x v)
      { c with locals := update c.locals (safeDup x) v.word } := by
  refine ⟨fun y hy => ?_, hr.words, by simp [hr.emits, emitted], fun y => ?_, hr.numIvars⟩
  · by_cases hxy : y = x
    · simp [hxy]
    · have hne : safeDup y ≠ safeDup x := fun he => hxy (hp.loc y x hy hx he)
      simp [hxy, hne, hr.locals y hy]
  · by_cases hxy : y = x
    · simpa [hxy] using hv
    · simpa [hxy] using hr.numLocals y

theorem setIvar (hr : AmpRel ctx scope σ c) (hp : Places ctx scope) (hx : .ivar x ∈ scope)
    (hv : v.numeric = true) {b : BitVec 32} (hb : b = v.word.setWidth 32) :
    AmpRel ctx scope (σ.setIvar x v)
      { c with words := update c.words (ctx.slot x) b } := by
  refine ⟨hr.locals, fun y hy => ?_, by simp [hr.emits, emitted], hr.numLocals, fun y => ?_⟩
  · by_cases hxy : y = x
    · simp [hxy, hb]
    · have hne : ctx.slot y ≠ ctx.slot x := fun he => hxy (hp.ivar y x hy hx he)
      simp [hxy, hne, hr.words y hy]
  · by_cases hxy : y = x
    · simpa [hxy] using hv
    · simpa [hxy] using hr.numIvars y

end AmpRel

theorem AmpAgree.setLocal {ctx : AmpCtx} (hp : Places ctx scope) (hx : .loc x ∈ scope)
    (hmem : .loc x ∈ changed) (c : AmpState) (k : Nat) (w : Word) :
    AmpAgree ctx (Off scope changed) k c
      { c with locals := update c.locals (safeDup x) w } := by
  refine ⟨fun y hy => ?_, fun _ _ => rfl⟩
  cases y with
  | loc y =>
      refine update_of_ne (fun he => hy.2 ?_) _ _
      rwa [hp.loc y x hy.1 hx he]
  | ivar y => rfl

theorem AmpAgree.setIvar {ctx : AmpCtx} (hp : Places ctx scope) (hx : .ivar x ∈ scope)
    (hmem : .ivar x ∈ changed) (c : AmpState) (k : Nat) (b : BitVec 32) :
    AmpAgree ctx (Off scope changed) k c
      { c with words := update c.words (ctx.slot x) b } := by
  refine ⟨fun y hy => ?_, fun _ _ => rfl⟩
  cases y with
  | loc y => rfl
  | ivar y =>
      refine update_of_ne (fun he => hy.2 ?_) _ _
      rwa [hp.ivar y x hy.1 hx he]

/-! ### A run of lowered code -/

/-- The lines of `o` run from `c` to `c'`, where the source is in `σ'`: they assign no variable but
the `changed` and no temporary up to `k`, they show what the source's run has noted, and the text,
as long as the variables it `reads` keep their values, has a value in `T`. -/
structure Ran (ctx : AmpCtx) (scope changed reads : List Var) (k : Nat) (o : AmpOut)
    (seen : List Seen) (c c' : AmpState) (σ' : RState) (T : CVal → Prop) : Prop where
  exec : execAmpAll o.code c = (.ok (), c')
  rel : AmpRel ctx scope σ' c'
  frame : AmpAgree ctx (Off scope changed) k c c'
  trace : c'.trace = c.trace ++ seen.filterMap Seen.shown
  text : ∀ c'', AmpAgree ctx (· ∈ reads) o.fresh c' c'' → T (o.value.eval c'')

namespace Ran

variable {ctx : AmpCtx} {changed₁ changed₂ reads reads₁ reads₂ : List Var} {k : Nat}
  {o a b : AmpOut} {seen seen₁ seen₂ : List Seen} {c c₁ c₂ : AmpState} {σ σ₁ σ₂ : RState}
  {T T₁ T₂ : CVal → Prop}

/-- A text alone. -/
theorem pure {t : AmpExpr} (hrel : AmpRel ctx scope σ c) (hseen : seen.filterMap Seen.shown = [])
    (htext : ∀ c', AmpAgree ctx (· ∈ reads) k c c' → T (t.eval c')) :
    Ran ctx scope changed reads k ⟨[], some t, k⟩ seen c c σ T :=
  ⟨by simp, hrel, .refl c, by simp [hseen], htext⟩

/-- Notes that do not show make no difference. -/
theorem note (h : Ran ctx scope changed reads k o seen c c₁ σ₁ T)
    (hseen : seen₁.filterMap Seen.shown = seen.filterMap Seen.shown) :
    Ran ctx scope changed reads k o seen₁ c c₁ σ₁ T :=
  ⟨h.exec, h.rel, h.frame, hseen ▸ h.trace, h.text⟩

/-- The text where it stands. -/
theorem here (h : Ran ctx scope changed reads k o seen c c₁ σ₁ T) : T (o.value.eval c₁) :=
  h.text c₁ (.refl c₁)

theorem paren (h : Ran ctx scope changed reads k o seen c c₁ σ₁ T) :
    Ran ctx scope changed reads k ⟨o.code, some (.paren o.value), o.fresh⟩ seen c c₁ σ₁ T :=
  ⟨h.exec, h.rel, h.frame, h.trace, h.text⟩

/-- Two operands: the lines of the right one come before the text of the left one is evaluated. -/
theorem operands (ha : Ran ctx scope changed₁ reads₁ k a seen₁ c c₁ σ₁ T₁)
    (hb : Ran ctx scope changed₂ reads₂ a.fresh b seen₂ c₁ c₂ σ₂ T₂) (hka : k ≤ a.fresh)
    (hab : a.fresh ≤ b.fresh) (hscope : reads₁ ⊆ scope) (hapart : ∀ y ∈ reads₁, y ∉ changed₂)
    (hop : ∀ x y, T₁ x → T₂ y → T (op.onAmp x y)) :
    Ran ctx scope (changed₁ ++ changed₂) (reads₁ ++ reads₂) k
      ⟨a.code ++ b.code, some (.binop op a.value b.value), b.fresh⟩ (seen₁ ++ seen₂) c c₂ σ₂ T := by
  have hframe : AmpAgree ctx (Off scope (changed₁ ++ changed₂)) k c₁ c₂ :=
    hb.frame.mono (fun _ => Off.mono (List.subset_append_right _ _)) hka
  have hleft : AmpAgree ctx (· ∈ reads₁) a.fresh c₁ c₂ :=
    hb.frame.mono (fun y hy => ⟨hscope hy, hapart y hy⟩) le_rfl
  refine ⟨?_, hb.rel,
    (ha.frame.mono (fun _ => Off.mono (List.subset_append_left _ _)) le_rfl).trans hframe, ?_,
    fun c'' hc'' => hop _ _ (ha.text c'' (hleft.trans ?_)) (hb.text c'' ?_)⟩
  · rw [execAmpAll_append, ha.exec, andThen_ok, hb.exec]
  · rw [hb.trace, ha.trace, List.filterMap_append, List.append_assoc]
  · exact hc''.mono (fun y hy => List.mem_append_left _ hy) hab
  · exact hc''.mono (fun y hy => List.mem_append_right _ hy) le_rfl

/-- A line after the lines of its value. -/
theorem line (h : Ran ctx scope changed₁ reads₁ k o seen₁ c c₁ σ₁ T₁) {s : AmpStmt} {t : AmpExpr}
    (hexec : s.exec c₁ = (.ok (), c₂)) (hrel : AmpRel ctx scope σ₂ c₂)
    (hframe : AmpAgree ctx (Off scope changed) k c₁ c₂) (hsub : changed₁ ⊆ changed)
    (htrace : c₂.trace = c₁.trace ++ seen₂.filterMap Seen.shown)
    (htext : ∀ c'', AmpAgree ctx (· ∈ reads) o.fresh c₂ c'' → T (t.eval c'')) :
    Ran ctx scope changed reads k ⟨o.code ++ [s], some t, o.fresh⟩ (seen₁ ++ seen₂) c c₂ σ₂ T := by
  refine ⟨?_, hrel, (h.frame.mono (fun _ => Off.mono hsub) le_rfl).trans hframe, ?_, htext⟩
  · rw [execAmpAll_append, h.exec, andThen_ok, execAmpAll_cons, hexec, andThen_ok, execAmpAll_nil]
  · rw [htrace, h.trace, List.filterMap_append, List.append_assoc]

/-- A line that leaves the value `v` in the word of an instance variable. -/
theorem store (h : Ran ctx scope changed₁ reads₁ k o seen₁ c c₁ σ₁ T₁) (hp : Places ctx scope)
    (hx : .ivar x ∈ scope) {s : AmpStmt} (hv : v.numeric = true) {w : BitVec 32}
    (hexec : s.exec c₁ = (.ok (), { c₁ with words := update c₁.words (ctx.slot x) w }))
    (hw : w = v.word.setWidth 32) (hsub : changed₁ ⊆ changed) (hmem : .ivar x ∈ changed)
    (hseen : seen.filterMap Seen.shown = seen₁.filterMap Seen.shown) (full : Bool) :
    Ran ctx scope changed [.ivar x] k ⟨o.code ++ [s], some (.ivar (ctx.slot x)), o.fresh⟩ seen c
      { c₁ with words := update c₁.words (ctx.slot x) w } (σ₁.setIvar x v)
      (Denotes full .u32 v.word) := by
  have hnone : c₁.trace = c₁.trace ++ List.filterMap Seen.shown [] := by simp
  refine (h.line hexec (h.rel.setIvar hp hx hv hw) (.setIvar hp hx hmem c₁ k w) hsub hnone
    fun c'' hc'' => ?_).note (by simp [hseen])
  have hsame := hc''.vars (.ivar x) (List.mem_singleton_self _)
  simp only [Var.Same, update_self] at hsame
  rw [AmpExpr.eval, hsame, hw]
  exact .u32 _ full

/-- Keeping a text as a line of its own does nothing. -/
theorem keepText (h : Ran ctx scope changed reads k o seen c c₁ σ₁ T) :
    execAmpAll (o.code ++ o.keepText) c = (.ok (), c₁) := by
  rw [execAmpAll_append, h.exec, andThen_ok]
  unfold AmpOut.keepText
  split_ifs
  · cases o.text <;> rfl
  · rfl

/-- A statement before others. -/
theorem seq (ha : Ran ctx scope changed₁ reads₁ k a seen₁ c c₁ σ₁ T₁)
    (hb : Ran ctx scope changed₂ reads₂ a.fresh b seen₂ c₁ c₂ σ₂ T₂) (hka : k ≤ a.fresh) :
    Ran ctx scope (changed₁ ++ changed₂) reads₂ k
      ⟨a.code ++ a.keepText ++ b.code, b.text, b.fresh⟩ (seen₁ ++ seen₂) c c₂ σ₂ T₂ := by
  have hframe : AmpAgree ctx (Off scope (changed₁ ++ changed₂)) k c₁ c₂ :=
    hb.frame.mono (fun _ => Off.mono (List.subset_append_right _ _)) hka
  refine ⟨?_, hb.rel,
    (ha.frame.mono (fun _ => Off.mono (List.subset_append_left _ _)) le_rfl).trans hframe, ?_,
    hb.text⟩
  · rw [execAmpAll_append, ha.keepText, andThen_ok, hb.exec]
  · rw [hb.trace, ha.trace, List.filterMap_append, List.append_assoc]

theorem widen_changed (h : Ran ctx scope changed₁ reads k o seen c c₁ σ₁ T)
    (hsub : changed₁ ⊆ changed) : Ran ctx scope changed reads k o seen c c₁ σ₁ T :=
  ⟨h.exec, h.rel, h.frame.mono (fun _ => Off.mono hsub) le_rfl, h.trace, h.text⟩

/-- The block of a branch leaves its value in the temporary `n`, which starts from zero. -/
theorem branch {ty : CTy} {n : Nat}
    (h : Ran ctx scope changed reads k o seen c c₁ σ₁ (Denotes full ty v.word)) (hn : n ≤ k)
    (hzero : c.tmps n = 0#64) (hnone : o.text = none → v = .nil)
    (hwide : full = true → (o.value.eval c₁).widen = v.word) {j : Nat} (hj : j < n) :
    ∃ c₂, execAmpAll (o.branch n) c = (.ok (), c₂) ∧ AmpRel ctx scope σ₁ c₂ ∧
      AmpAgree ctx (Off scope changed) j c c₂ ∧ c₂.trace = c₁.trace ∧
      Denotes full .s64 v.word (.s64 (c₂.tmps n)) := by
  have hframe : AmpAgree ctx (Off scope changed) j c c₁ :=
    h.frame.mono (fun _ hy => hy) (by omega)
  unfold AmpOut.branch
  cases ht : o.text with
  | none =>
      refine ⟨c₁, h.exec, h.rel, hframe, rfl, ?_⟩
      rw [h.frame.tmps n hn, hzero, hnone ht]
      exact .s64 _ full
  | some t =>
      have hvalue : o.value = t := by simp [AmpOut.value, ht]
      refine ⟨{ c₁ with tmps := update c₁.tmps n (t.eval c₁).widen }, ?_,
        h.rel.setTmp n _, hframe.trans (.setTmp c₁ hj _), rfl, ?_⟩
      · simp [h.exec, AmpStmt.exec]
      · dsimp only
        rw [update_self, ← hvalue]
        exact h.here.keep hwide

/-- An `if` on a predicate whose value is `b`. -/
theorem cond {b : Bool} {w : Word} {n f : Nat} {t e : List AmpStmt} {c₃ : AmpState}
    (hp : Ran ctx scope changed₁ reads₁ k o seen₁ c c₁ σ₁ (fun x => x.isTrue = b))
    (hk : k ≤ o.fresh) (hn : n = o.fresh + 1) (hf : n ≤ f)
    (hstart : c₃ = { c₁ with tmps := update c₁.tmps n 0#64 }.log (.branch b))
    (hexec : execAmpAll (if b then t else e) c₃ = (.ok (), c₂)) (hrel : AmpRel ctx scope σ₂ c₂)
    (hframe : AmpAgree ctx (Off scope changed₂) o.fresh c₃ c₂)
    (htrace : c₂.trace = c₃.trace ++ seen₂.filterMap Seen.shown)
    (hval : Denotes full .s64 w (.s64 (c₂.tmps n))) :
    Ran ctx scope (changed₁ ++ changed₂) [] k
      ⟨o.code ++ [.declIf n, .cond o.value t e], some (.ifTmp n), f⟩
      (seen₁ ++ .branch b :: seen₂) c c₂ σ₂ (Denotes full .s64 w) := by
  have hdecl : AmpAgree ctx (fun _ => True) o.fresh c₁
      { c₁ with tmps := update c₁.tmps n 0#64 } := .setTmp c₁ (by omega) _
  have hstarted : AmpAgree ctx (fun _ => True) o.fresh c₁ c₃ := hstart ▸ hdecl.trans (.log _ _)
  have hb := hp.text _ (hdecl.mono (fun _ _ => trivial) le_rfl)
  have hrest : AmpAgree ctx (Off scope (changed₁ ++ changed₂)) k c₁ c₂ :=
    ((hstarted.mono (fun _ _ => trivial) le_rfl).trans
      (hframe.mono (fun _ => Off.mono (List.subset_append_right _ _)) le_rfl)).mono
        (fun _ hy => hy) hk
  refine ⟨?_, hrel,
    (hp.frame.mono (fun _ => Off.mono (List.subset_append_left _ _)) le_rfl).trans hrest, ?_,
    fun c'' hc'' => ?_⟩
  · rw [execAmpAll_append, hp.exec, andThen_ok, execAmpAll_cons, AmpStmt.exec, andThen_ok,
      execAmpAll_cons, AmpStmt.exec, hb]
    cases b <;> simp_all
  · rw [htrace, hstart]
    simp [AmpState.log, hp.trace, Seen.shown]
  · have htmp : c''.tmps n = c₂.tmps n := hc''.tmps n hf
    show Denotes full .s64 w (.s64 (c''.tmps n))
    rwa [htmp]

end Ran

/-! ### Ruby's operators -/

theorem ruby_ring (hop : op.ring = true) {a b : Value} (ha : a.numeric = true)
    (hb : b.numeric = true) : op.ruby a b = some (.int (op.compute true a.word b.word)) := by
  rw [op.ruby_numeric ha hb]
  cases op <;> first | rfl | cases hop

theorem ruby_comparison (hop : op.comparison = true) {a b : Value} (ha : a.numeric = true)
    (hb : b.numeric = true) :
    op.ruby a b = some (.bool (op.compare true a.word b.word)) := by
  rw [op.ruby_numeric ha hb]
  cases op <;> first | rfl | cases hop

/-! ### The simulation -/

section

variable {l r n : Node} {ns : List Node} {h : Host} {ctx : AmpCtx}

theorem noteWiden_shown (made : Bool) (ty : CTy) (v : Value) :
    (noteWiden made ty v).filterMap Seen.shown = [] := by
  cases made <;> rfl

/-- What is noted as widened can be widened. -/
theorem widen_of_noted {ty : CTy} {x : CVal} {seen : List Seen} (hx : Denotes full ty v.word x)
    (hseen : ∀ s ∈ seen, s.Fine) (hmem : noteWiden full ty v ⊆ seen) (hfull : full = true) :
    x.widen = v.word := by
  subst hfull
  obtain ⟨hrange, hkept⟩ := hseen (.widen ty v.word) (hmem (List.mem_singleton_self _))
  exact hx.widen (hrange _ (List.mem_singleton_self _)) hkept

/-- The operands of an operator, at their common type. -/
theorem sim_operands {k : Nat} {a b : AmpOut}
    {va vb : Value} {σ σ₁ σ₂ : RState} {c c₁ c₂ : AmpState} {seen : List Seen} {T : CVal → Prop}
    (hl : Ran ctx scope (collect varWrite l) (textReads l) k a
      (watch h (full && (ampTy l).join (ampTy r) == .s64) l σ) c c₁ σ₁
      (Denotes (full && (ampTy l).join (ampTy r) == .s64) (ampTy l) va.word))
    (hr : Ran ctx scope (collect varWrite r) (textReads r) a.fresh b
      (watch h (full && (ampTy l).join (ampTy r) == .s64) r σ₁) c₁ c₂ σ₂
      (Denotes (full && (ampTy l).join (ampTy r) == .s64) (ampTy r) vb.word))
    (hka : k ≤ a.fresh) (hab : a.fresh ≤ b.fresh)
    (hel : eval h l σ = (.ok va, σ₁)) (her : eval h r σ₁ = (.ok vb, σ₂))
    (hscope : ∀ y ∈ collect varRef l, y ∈ scope)
    (hapart : ∀ y ∈ textReads l, y ∉ collect varWrite r)
    (hseen : watch h full (.binop op l r) σ = seen)
    (hT : ∀ x y, Denotes (full && (ampTy l).join (ampTy r) == .s64) (ampTy l) va.word x →
      Denotes (full && (ampTy l).join (ampTy r) == .s64) (ampTy r) vb.word y →
      T (op.onAmp x y)) :
    Ran ctx scope (collect varWrite (.binop op l r)) (textReads (.binop op l r)) k
      ⟨a.code ++ b.code, some (.binop op a.value b.value), b.fresh⟩ seen c c₂ σ₂ T := by
  have hrun := hl.operands hr hka hab (fun y hy => hscope y (textReads_subset l hy)) hapart hT
  have hlast (s : Seen) (hs : s.shown = none) : [s].filterMap Seen.shown = [] := by simp [hs]
  refine (hrun.widen_changed (by simp [collect, varWrite])).note ?_
  rw [← hseen]
  simp only [watch, hel, her, noteThen_ok, List.filterMap_append, noteWiden_shown, List.nil_append]
  rw [hlast _ (by split_ifs <;> rfl), List.append_nil]

theorem fine_left {seen₁ seen₂ : List Seen} (h : ∀ s ∈ seen₁ ++ seen₂, s.Fine) :
    ∀ s ∈ seen₁, s.Fine := fun s hs => h s (List.mem_append_left _ hs)

theorem fine_right {seen₁ seen₂ : List Seen} (h : ∀ s ∈ seen₁ ++ seen₂, s.Fine) :
    ∀ s ∈ seen₂, s.Fine := fun s hs => h s (List.mem_append_right _ hs)

/-- The run of a node's lowering follows that of the node; the value of its text is Ruby's. -/
def AmpSim (h : Host) (ctx : AmpCtx) (scope : List Var) (n : Node) : Prop :=
  ∀ {full : Bool} {pos : Pos} {k : Nat} {o : AmpOut} {σ : RState} {c : AmpState}, Fits scope n →
    lowerAmp ctx pos n k = .ok o → AmpRel ctx scope σ c → (∀ s ∈ watch h full n σ, s.Fine) →
    ∃ v σ' c', eval h n σ = (.ok v, σ') ∧ v.numeric = true ∧ o.text.isSome = true ∧
      Ran ctx scope (collect varWrite n) (textReads n) k o (watch h full n σ) c c' σ'
        (Denotes full (ampTy n) v.word)

/-- The same, of a predicate. -/
def AmpSimPredicate (h : Host) (ctx : AmpCtx) (scope : List Var) (n : Node) : Prop :=
  ∀ {pos : Pos} {k : Nat} {o : AmpOut} {σ : RState} {c : AmpState}, FitsPredicate scope n →
    lowerAmp ctx pos n k = .ok o → AmpRel ctx scope σ c → (∀ s ∈ watch h true n σ, s.Fine) →
    ∃ b σ' c', eval h n σ = (.ok (.bool b), σ') ∧
      Ran ctx scope (collect varWrite n) (textReads n) k o (watch h true n σ) c c' σ'
        (fun x => x.isTrue = b)

/-- The same, of statements. -/
def AmpSimAll (h : Host) (ctx : AmpCtx) (scope : List Var) (ns : List Node) : Prop :=
  ∀ {full : Bool} {k : Nat} {o : AmpOut} {σ : RState} {c : AmpState}, FitsAll scope ns →
    lowerAmpAll ctx ns k = .ok o → AmpRel ctx scope σ c → (∀ s ∈ watchAll h full ns σ, s.Fine) →
    ∃ v σ' c', evalAll h ns σ = (.ok v, σ') ∧ v.numeric = true ∧ (o.text = none → v = .nil) ∧
      Ran ctx scope (collectAll varWrite ns) (textReadsLast ns) k o (watchAll h full ns σ) c c' σ'
        (Denotes full (ampTyLast ns) v.word)

theorem ampSim_int (v : Int) : AmpSim h ctx scope (.int v) := by
  intro full pos k o σ c _ ho hrel _
  simp only [lowerAmp, Except.ok.injEq] at ho
  subst ho
  exact ⟨.int (.ofInt 64 v), σ, c, by rw [eval], rfl, rfl,
    .pure hrel rfl fun c' _ => .ofInt v full c'⟩

theorem ampSim_lvar (x : String) : AmpSim h ctx scope (.lvar x) := by
  intro full pos k o σ c hfits ho hrel _
  simp only [lowerAmp, Except.ok.injEq] at ho
  subst ho
  refine ⟨σ.locals x, σ, c, by rw [eval], hrel.numLocals x, rfl, .pure hrel rfl fun c' hc' => ?_⟩
  have hsame : c'.locals (safeDup x) = c.locals (safeDup x) :=
    hc'.vars (.loc x) (by simp [textReads])
  rw [AmpExpr.eval, hsame, hrel.locals x (fits_lvar hfits)]
  exact .s64 _ full

theorem ampSim_ivar (x : String) : AmpSim h ctx scope (.ivar x) := by
  intro full pos k o σ c hfits ho hrel _
  simp only [lowerAmp, Except.ok.injEq] at ho
  subst ho
  refine ⟨σ.ivars x, σ, c, by rw [eval], hrel.numIvars x, rfl, .pure hrel rfl fun c' hc' => ?_⟩
  have hsame : c'.words (ctx.slot x) = c.words (ctx.slot x) :=
    hc'.vars (.ivar x) (by simp [textReads])
  rw [AmpExpr.eval, hsame, hrel.words x (fits_ivar hfits)]
  exact .u32 _ full

theorem ampSim_binop (hsl : AmpSim h ctx scope l) (hsr : AmpSim h ctx scope r) :
    AmpSim h ctx scope (.binop op l r) := by
  intro full pos k o σ c hfits ho hrel hfine
  obtain ⟨hop, hfl, hfr, hapart⟩ := fits_binop hfits
  obtain ⟨a, b, ha, hb, rfl⟩ := lowerAmp_binop ho
  simp only [watch] at hfine
  obtain ⟨va, σ₁, c₁, hel, hna, _, hl⟩ := hsl hfl ha hrel (fine_left hfine)
  rw [hel, noteThen_ok] at hfine
  obtain ⟨vb, σ₂, c₂, her, hnb, _, hr⟩ := hsr hfr hb hl.rel (fine_left (fine_right hfine))
  rw [her, noteThen_ok] at hfine
  have hnotes := fine_left (fine_right (fine_right hfine))
  refine ⟨.int (op.compute true va.word vb.word), σ₂, c₂, ?_, rfl, rfl,
    sim_operands hl hr (lowerAmp_fresh l ha) (lowerAmp_fresh r hb) hel her hfl.2.1 hapart rfl
      fun x y hx hy => ?_⟩
  · rw [eval, hel, andThen_ok, her, andThen_ok, applyOp, ruby_ring hop hna hnb]
  · exact hx.ring hop hy fun hf =>
      ⟨widen_of_noted hx hnotes (List.subset_append_left _ _) hf,
        widen_of_noted hy hnotes (List.subset_append_right _ _) hf⟩

theorem ampSimPredicate_binop (hsl : AmpSim h ctx scope l) (hsr : AmpSim h ctx scope r) :
    AmpSimPredicate h ctx scope (.binop op l r) := by
  intro pos k o σ c hfits ho hrel hfine
  obtain ⟨hop, hfl, hfr, hapart⟩ := fitsPredicate_binop hfits
  obtain ⟨a, b, ha, hb, rfl⟩ := lowerAmp_binop ho
  simp only [watch] at hfine
  obtain ⟨va, σ₁, c₁, hel, hna, _, hl⟩ := hsl hfl ha hrel (fine_left hfine)
  rw [hel, noteThen_ok] at hfine
  obtain ⟨vb, σ₂, c₂, her, hnb, _, hr⟩ := hsr hfr hb hl.rel (fine_left (fine_right hfine))
  rw [her, noteThen_ok, if_pos hop] at hfine
  have hnotes := fine_left (fine_right (fine_right hfine))
  obtain ⟨hrange, hkept⟩ := fine_right (fine_right (fine_right hfine)) _ (List.mem_singleton_self _)
  refine ⟨op.compare true va.word vb.word, σ₂, c₂, ?_,
    sim_operands hl hr (lowerAmp_fresh l ha) (lowerAmp_fresh r hb) hel her hfl.2.1 hapart rfl
      fun x y hx hy => ?_⟩
  · rw [eval, hel, andThen_ok, her, andThen_ok, applyOp, ruby_comparison hop hna hnb]
  · exact hx.comparison hop hy (fun hf =>
      ⟨widen_of_noted hx hnotes (List.subset_append_left _ _) hf,
        widen_of_noted hy hnotes (List.subset_append_right _ _) hf⟩)
      (hrange _ (by simp [Seen.words])) (hrange _ (by simp [Seen.words])) hkept

theorem ampSimPredicate_paren {p : Node} (hp : AmpSimPredicate h ctx scope p) :
    AmpSimPredicate h ctx scope (.paren [p]) := by
  intro pos k o σ c hfits ho hrel hfine
  obtain ⟨a, ha, rfl⟩ := lowerAmp_paren ho
  rw [lowerAmpAll] at ha
  simp only [watch, watchAll] at hfine
  obtain ⟨b, σ', c', he, hrun⟩ := hp (fitsPredicate_paren hfits) ha hrel hfine
  refine ⟨b, σ', c', by rw [eval, evalAll, he], ?_⟩
  simpa only [collect, collectAll, varWrite, watch, watchAll, textReads, textReadsLast,
    List.nil_append, List.append_nil] using hrun.paren

theorem ampSim_paren_nil : AmpSim h ctx scope (.paren []) := by
  intro full pos k o σ c _ ho hrel _
  simp only [lowerAmp, Except.ok.injEq] at ho
  subst ho
  exact ⟨.nil, σ, c, by rw [eval, evalAll], rfl, rfl, .pure hrel rfl fun c' _ => .ofInt 0 full c'⟩

theorem ampSim_paren (hs : AmpSimAll h ctx scope (n :: ns)) :
    AmpSim h ctx scope (.paren (n :: ns)) := by
  intro full pos k o σ c hfits ho hrel hfine
  obtain ⟨a, ha, rfl⟩ := lowerAmp_paren ho
  simp only [watch] at hfine
  obtain ⟨v, σ', c', he, hn, _, hrun⟩ := hs (fits_paren hfits) ha hrel hfine
  refine ⟨v, σ', c', by rw [eval, he], hn, rfl, ?_⟩
  simpa only [collect, varWrite, watch, textReads, ampTy, List.nil_append] using hrun.paren

theorem ampSim_lwrite {v : Node} (hp : Places ctx scope) (hs : AmpSim h ctx scope v) :
    AmpSim h ctx scope (.lwrite x v) := by
  intro full pos k o σ c hfits ho hrel hfine
  obtain ⟨hx, hfv⟩ := fits_lwrite hfits
  obtain ⟨a, ha, rfl⟩ := lowerAmp_lwrite ho
  simp only [watch] at hfine ⊢
  obtain ⟨va, σ₁, c₁, he, hn, _, hrun⟩ := hs hfv ha hrel (fine_left hfine)
  rw [he, noteThen_ok] at hfine ⊢
  have hwide := widen_of_noted hrun.here (fine_right hfine) (List.Subset.refl _) rfl
  refine ⟨va, _, _, by rw [eval, he, andThen_ok], hn, rfl,
    hrun.line (by rw [AmpStmt.exec, hwide]) (hrun.rel.setLocal hp hx hn)
      (.setLocal hp hx (by simp [collect, varWrite]) c₁ _ _) (by simp [collect])
      (by simp [noteWiden_shown]) fun c'' hc'' => ?_⟩
  have hsame := hc''.vars (.loc x) (by simp [textReads])
  simp only [Var.Same, update_self] at hsame
  rw [AmpExpr.eval, hsame]
  exact .s64 _ full

theorem ampSim_iwrite {v : Node} (hp : Places ctx scope) (hs : AmpSim h ctx scope v) :
    AmpSim h ctx scope (.iwrite x v) := by
  intro full pos k o σ c hfits ho hrel hfine
  obtain ⟨hx, hfv⟩ := fits_iwrite hfits
  obtain ⟨a, ha, rfl⟩ := lowerAmp_iwrite ho
  simp only [watch] at hfine ⊢
  obtain ⟨va, σ₁, c₁, he, hn, _, hrun⟩ := hs hfv ha hrel hfine
  exact ⟨va, _, _, by rw [eval, he, andThen_ok], hn, rfl,
    hrun.store hp hx hn (by rw [AmpStmt.exec]) hrun.here.low (by simp [collect])
      (by simp [collect, varWrite]) rfl full⟩

theorem ampSim_iopwrite {v : Node} (hp : Places ctx scope) (hs : AmpSim h ctx scope v) :
    AmpSim h ctx scope (.iopwrite x op v) := by
  intro full pos k o σ c hfits ho hrel hfine
  obtain ⟨hop, hx, hfv, hapart⟩ := fits_iopwrite hfits
  obtain ⟨a, ha, rfl⟩ := lowerAmp_iopwrite ho
  simp only [watch] at hfine ⊢
  obtain ⟨vb, σ₁, c₁, he, hn, _, hrun⟩ := hs hfv ha hrel (fine_left hfine)
  rw [he, noteThen_ok]
  -- the word still holds what Ruby read first
  have hword : c₁.words (ctx.slot x) = (σ.ivars x).word.setWidth 32 :=
    (hrun.frame.vars (.ivar x) ⟨hx, hapart⟩).trans (hrel.words x hx)
  have hnarrow : (op.onAmp (.u32 (c₁.words (ctx.slot x))) (a.value.eval c₁)).narrow =
      (op.compute true (σ.ivars x).word vb.word).setWidth 32 := by
    rw [onAmp_narrow _ _ hop, hrun.here.low, hword, setWidth_compute hop true true]
    rfl
  refine ⟨.int (op.compute true (σ.ivars x).word vb.word), _, _, ?_, rfl, rfl,
    hrun.store hp hx rfl (by rw [AmpStmt.exec]) hnarrow (by simp [collect])
      (by simp [collect, varWrite]) (by simp [Seen.shown]) full⟩
  rw [eval, he, andThen_ok, applyOp, ruby_ring hop (hrel.numIvars x) hn]

theorem ampSim_emit {v : Node} (hs : AmpSim h ctx scope v) : AmpSim h ctx scope (.emit v) := by
  intro full pos k o σ c hfits ho hrel hfine
  obtain ⟨a, ha, rfl⟩ := lowerAmp_emit ho
  simp only [watch] at hfine ⊢
  obtain ⟨va, σ₁, c₁, he, hn, _, hrun⟩ := hs (fits_emit hfits) ha hrel (fine_left hfine)
  rw [he, noteThen_ok] at hfine ⊢
  have hwide := widen_of_noted hrun.here (fine_right hfine) (List.subset_append_left _ _) rfl
  exact ⟨.nil, _, _, by rw [eval, he, andThen_ok], rfl, rfl,
    hrun.line (by rw [AmpStmt.exec, hwide]) (hrun.rel.emit va.word) (.log c₁ _)
      (by simp [collect, varWrite]) (by simp [AmpState.log, noteWiden_shown, Seen.shown])
      fun c'' _ => .ofInt 0 full c''⟩

/-- The block that is taken. -/
theorem branch_taken (hs : AmpSimAll h ctx scope ns) {n k : Nat}
    {o : AmpOut} {σ : RState} {c : AmpState} (hfits : FitsAll scope ns)
    (ho : lowerAmpAll ctx ns k = .ok o) (hn : n ≤ k) (hrel : AmpRel ctx scope σ c)
    (hzero : c.tmps n = 0#64)
    (hfine : ∀ s ∈ watchAll h full ns σ ++ noteThen (evalAll h ns σ)
      (fun v _ => noteWiden full (ampTyLast ns) v), s.Fine) {j : Nat} (hj : j < n) :
    ∃ v σ' c', evalAll h ns σ = (.ok v, σ') ∧ v.numeric = true ∧
      execAmpAll (o.branch n) c = (.ok (), c') ∧ AmpRel ctx scope σ' c' ∧
      AmpAgree ctx (Off scope (collectAll varWrite ns)) j c c' ∧
      c'.trace = c.trace ++ (watchAll h full ns σ ++ noteThen (evalAll h ns σ)
        (fun v _ => noteWiden full (ampTyLast ns) v)).filterMap Seen.shown ∧
      Denotes full .s64 v.word (.s64 (c'.tmps n)) := by
  obtain ⟨v, σ', c₁, he, hnum, hnone, hrun⟩ := hs hfits ho hrel (fine_left hfine)
  rw [he, noteThen_ok] at hfine ⊢
  obtain ⟨c', hexec, hrel', hframe, htrace, hval⟩ := hrun.branch hn hzero hnone
    (widen_of_noted hrun.here (fine_right hfine) (List.Subset.refl _)) hj
  refine ⟨v, σ', c', rfl, hnum, hexec, hrel', hframe, ?_, hval⟩
  rw [htrace, hrun.trace, List.filterMap_append, noteWiden_shown, List.append_nil]

theorem ampSim_if {p : Node} {t e : List Node} (hsp : AmpSimPredicate h ctx scope p)
    (hst : AmpSimAll h ctx scope t) (hse : AmpSimAll h ctx scope e) :
    AmpSim h ctx scope (.ifNode p t e) := by
  intro full pos k o σ c hfits ho hrel hfine
  obtain ⟨hfp, hft, hfe⟩ := fits_if hfits
  obtain ⟨a, tb, eb, ha, htb, heb, rfl⟩ := lowerAmp_if ho
  simp only [watch] at hfine ⊢
  obtain ⟨b, σ₁, c₁, hep, hpred⟩ := hsp hfp ha hrel (fine_left hfine)
  rw [hep, noteThen_ok] at hfine ⊢
  have hrest := fun s hs => hfine s (List.mem_append_right _ (List.mem_cons_of_mem _ hs))
  have hstart := (hpred.rel.setTmp (a.fresh + 1) 0#64).branch b
  have htmp : AmpState.tmps ({ c₁ with tmps := update c₁.tmps (a.fresh + 1) 0#64 }.log
      (.branch b)) (a.fresh + 1) = 0#64 := update_self _ _ _
  have hk := lowerAmp_fresh p ha
  have hn := lowerAmpAll_fresh t htb
  have hf := hn.trans (lowerAmpAll_fresh e heb)
  have hchanged : collect varWrite (.ifNode p t e) =
      collect varWrite p ++ (collectAll varWrite t ++ collectAll varWrite e) := by
    simp [collect, varWrite]
  rw [hchanged]
  cases b with
  | true =>
      obtain ⟨v, σ₂, c₂, het, hnum, hexec, hrel₂, hframe, htrace, hval⟩ :=
        branch_taken hst hft htb le_rfl hstart htmp hrest (Nat.lt_succ_self _)
      refine ⟨v, σ₂, c₂, ?_, hnum, rfl, hpred.cond hk rfl hf rfl hexec hrel₂
        (hframe.mono (fun _ => Off.mono (List.subset_append_left _ _)) le_rfl) htrace hval⟩
      rw [eval, hep, andThen_ok]
      exact het
  | false =>
      obtain ⟨v, σ₂, c₂, hee, hnum, hexec, hrel₂, hframe, htrace, hval⟩ :=
        branch_taken hse hfe heb hn hstart htmp hrest (Nat.lt_succ_self _)
      refine ⟨v, σ₂, c₂, ?_, hnum, rfl, hpred.cond hk rfl hf rfl hexec hrel₂
        (hframe.mono (fun _ => Off.mono (List.subset_append_right _ _)) le_rfl) htrace hval⟩
      rw [eval, hep, andThen_ok]
      exact hee

theorem ampSimAll_nil : AmpSimAll h ctx scope [] := by
  intro full k o σ c _ ho hrel _
  simp only [lowerAmpAll, Except.ok.injEq] at ho
  subst ho
  exact ⟨.nil, σ, c, by rw [evalAll], rfl, fun _ => rfl, by simp, hrel, .refl c, by simp,
    fun c' _ => .ofInt 0 full c'⟩

theorem ampSimAll_single (hs : AmpSim h ctx scope n) : AmpSimAll h ctx scope [n] := by
  intro full k o σ c hfits ho hrel hfine
  rw [lowerAmpAll] at ho
  simp only [watchAll] at hfine ⊢
  obtain ⟨v, σ', c', he, hn, hsome, hrun⟩ := hs (fitsAll_cons hfits).1 ho hrel hfine
  refine ⟨v, σ', c', by rw [evalAll, he], hn, fun hnone => ?_, ?_⟩
  · rw [hnone] at hsome
    exact nomatch hsome
  · simpa only [collectAll, textReadsLast, ampTyLast, List.append_nil] using hrun

theorem ampSimAll_cons {m : Node} (hs : AmpSim h ctx scope n)
    (hss : AmpSimAll h ctx scope (m :: ns)) : AmpSimAll h ctx scope (n :: m :: ns) := by
  intro full k o σ c hfits ho hrel hfine
  obtain ⟨hfn, hfns⟩ := fitsAll_cons hfits
  obtain ⟨a, b, ha, hb, rfl⟩ := lowerAmpAll_cons ho
  have hwatch : watchAll h full (n :: m :: ns) σ =
    watch h false n σ ++ noteThen (eval h n σ) fun _ σ => watchAll h full (m :: ns) σ := rfl
  rw [hwatch] at hfine ⊢
  obtain ⟨v, σ₁, c₁, he, _, _, hrun⟩ := hs hfn ha hrel (fine_left hfine)
  rw [he, noteThen_ok] at hfine ⊢
  obtain ⟨w, σ₂, c₂, hes, hnw, hnone, hruns⟩ := hss hfns hb hrun.rel (fine_right hfine)
  refine ⟨w, σ₂, c₂, ?_, hnw, hnone, ?_⟩
  · have hevalAll : evalAll h (n :: m :: ns) σ =
      andThen (eval h n σ) fun _ σ => evalAll h (m :: ns) σ := rfl
    rw [hevalAll, he, andThen_ok, hes]
  · rw [collectAll]
    exact hrun.seq hruns (lowerAmp_fresh n ha)

/-- No predicate. -/
theorem ampSimPredicate_absurd (hn : ampPredicate n = false) :
    AmpSimPredicate h ctx scope n := by
  intro pos k o σ c hfits _ _ _
  exact absurd hfits.1 (by simp [hn])

/-- Outside the fragment. -/
theorem ampSim_absurd (hn : ampFragment n = false) : AmpSim h ctx scope n := by
  intro full pos k o σ c hfits _ _ _
  exact absurd hfits.1 (by simp [hn])

mutual

/-- **A node is simulated by its lowering.** -/
theorem ampSim (hp : Places ctx scope) : ∀ n : Node, AmpSim h ctx scope n
  | .int v => ampSim_int v
  | .lvar x => ampSim_lvar x
  | .ivar x => ampSim_ivar x
  | .binop _ l r => ampSim_binop (ampSim hp l) (ampSim hp r)
  | .paren [] => ampSim_paren_nil
  | .paren (n :: ns) => ampSim_paren (ampSimAll hp (n :: ns))
  | .lwrite _ v => ampSim_lwrite hp (ampSim hp v)
  | .iwrite _ v => ampSim_iwrite hp (ampSim hp v)
  | .iopwrite _ _ v => ampSim_iopwrite hp (ampSim hp v)
  | .ifNode p t e => ampSim_if (ampSimPredicate hp p) (ampSimAll hp t) (ampSimAll hp e)
  | .emit v => ampSim_emit (ampSim hp v)
  | .and .. | .or .. | .ret _ | .call .. | .times .. => ampSim_absurd (by simp [ampFragment])

theorem ampSimPredicate (hp : Places ctx scope) : ∀ n : Node, AmpSimPredicate h ctx scope n
  | .binop _ l r => ampSimPredicate_binop (ampSim hp l) (ampSim hp r)
  | .paren [p] => ampSimPredicate_paren (ampSimPredicate hp p)
  | .paren [] | .paren (_ :: _ :: _) | .int _ | .lvar _ | .ivar _ | .and .. | .or .. | .lwrite ..
  | .iwrite .. | .iopwrite .. | .ret _ | .ifNode .. | .emit _ | .call .. | .times .. =>
      ampSimPredicate_absurd (by simp [ampPredicate])

/-- **Statements are simulated by their lowering.** -/
theorem ampSimAll (hp : Places ctx scope) : ∀ ns : List Node, AmpSimAll h ctx scope ns
  | [] => ampSimAll_nil
  | [n] => ampSimAll_single (ampSim hp n)
  | n :: m :: ns => ampSimAll_cons (ampSim hp n) (ampSimAll hp (m :: ns))

end

end

/-! ### A handler -/

/-- The variables of a handler. -/
def Method.ampScope (ms : List Method) (m : Method) : List Var :=
  m.names.map .loc ++ (ampIvars ms).map .ivar

/-- The notes of a call.  The value is handed back as an `int` that nobody looks at. -/
def Method.watch (h : Host) (m : Method) (ivars : String → Value) : List Seen :=
  watchAll h false m.body ⟨bindParams m.params [], ivars, []⟩

theorem ampIvarSlot_inj {y : String} (hx : x ∈ ampIvars ms)
    (h : ampIvarSlot ms x = ampIvarSlot ms y) : x = y := (List.idxOf_inj hx).mp h

theorem places (hnames : m.NamesApart) :
    Places ⟨ampIvarSlot ms, m.void⟩ (m.ampScope ms) := by
  refine ⟨fun x y hx hy he => hnames x ?_ y ?_ he, fun x y hx _ he => ampIvarSlot_inj ?_ he⟩
  · simpa [Method.ampScope] using hx
  · simpa [Method.ampScope] using hy
  · simpa [Method.ampScope] using hx

mutual

theorem mem_ivarUses {x : String} : ∀ n : Node, .ivar x ∈ collect varRef n → x ∈ ivarUses n
  | .int _, hx | .lvar _, hx => by simp [collect, varRef] at hx
  | .ivar y, hx => by simpa [collect, varRef, ivarUses] using hx
  | .binop _ l r, hx | .and l r, hx | .or l r, hx => by
      simp only [collect, varRef, List.nil_append, List.mem_append] at hx
      rw [ivarUses]
      exact List.mem_append.mpr (hx.imp (mem_ivarUses l) (mem_ivarUses r))
  | .paren body, hx | .ret body, hx | .call _ _ body, hx => by
      simp only [collect, varRef, List.nil_append] at hx
      rw [ivarUses]
      exact mem_ivarUsesAll body hx
  | .lwrite y v, hx | .emit v, hx => by
      rw [ivarUses]
      exact mem_ivarUses v (by simpa [collect, varRef] using hx)
  | .iwrite y v, hx | .iopwrite y _ v, hx => by
      simp only [collect, varRef, List.cons_append, List.nil_append, List.mem_cons,
        Var.ivar.injEq] at hx
      rw [ivarUses, List.mem_append, List.mem_singleton]
      exact hx.symm.imp_left (mem_ivarUses v)
  | .ifNode p t e, hx => by
      simp only [collect, varRef, List.nil_append, List.mem_append] at hx
      rw [ivarUses, List.mem_append, List.mem_append]
      exact hx.imp (fun hx => hx.imp (mem_ivarUses p) (mem_ivarUsesAll t)) (mem_ivarUsesAll e)
  | .times r _ _ body, hx => by
      simp only [collect, varRef, List.nil_append, List.mem_append] at hx
      rw [ivarUses, List.mem_append]
      exact hx.imp (mem_ivarUses r) (mem_ivarUsesAll body)

theorem mem_ivarUsesAll {x : String} :
    ∀ ns : List Node, .ivar x ∈ collectAll varRef ns → x ∈ ivarUsesAll ns
  | [], hx => by simp [collectAll] at hx
  | n :: ns, hx => by
      rw [collectAll, List.mem_append] at hx
      rw [ivarUsesAll, List.mem_append]
      exact hx.imp (mem_ivarUses n) (mem_ivarUsesAll ns)

end

/-- The declarations at the top of a function. -/
theorem declare_amp (xs : List String) (c : AmpState) :
    execAmpAll (xs.map fun s => .assign s (.int 0)) c =
      (.ok (), { c with locals := fun s => if s ∈ xs then 0#64 else c.locals s }) := by
  induction xs generalizing c with
  | nil => simp
  | cons x xs ih =>
      have hzero : ((AmpExpr.int 0).eval c).widen = 0#64 := by
        simp [AmpExpr.eval, CVal.widen]
      rw [List.map_cons, execAmpAll_cons, AmpStmt.exec, andThen_ok, ih, hzero]
      congr 2
      funext s
      by_cases hs : s = x <;> simp [hs]

theorem ampHandler_ok {code : List AmpStmt} (h : ampHandler ms m = .ok code) :
    m.params = [] ∧ ∃ o r, lowerAmpAll ⟨ampIvarSlot ms, m.void⟩ m.body 0 = .ok o ∧
      code = m.declared.map (fun s => .assign s (.int 0)) ++ o.code ++ [.ret r] := by
  unfold ampHandler at h
  by_cases hparams : m.params = []
  · rw [if_neg (not_not.mpr hparams)] at h
    split at h
    · exact nomatch h
    · obtain ⟨o, ho, h⟩ := bind_ok h
      exact ⟨hparams, o, _, ho, (Except.ok.inj h).symm⟩
  · rw [if_pos hparams] at h
    exact nomatch h

theorem start_ampRel {ivars : String → Value} {words : Nat → BitVec 32} (hparams : m.params = [])
    (hnum : ∀ x, (ivars x).numeric = true)
    (hwords : ∀ x ∈ ampIvars ms, words (ampIvarSlot ms x) = (ivars x).word.setWidth 32)
    (locals : String → Word) (tmps : Nat → Word) :
    AmpRel ⟨ampIvarSlot ms, m.void⟩ (m.ampScope ms) ⟨bindParams m.params [], ivars, []⟩
      ⟨fun s => if s ∈ m.declared then 0#64 else locals s, tmps, words, []⟩ := by
  refine ⟨fun x hx => ?_, fun x hx => hwords x ?_, rfl, bindParams_numeric m.params [], hnum⟩
  · have hmem : x ∈ m.names := by simpa [Method.ampScope] using hx
    have hdecl : safeDup x ∈ m.declared := by
      rw [Method.names, hparams, List.nil_append] at hmem
      simpa [Method.declared, hparams, collectLocals] using ⟨x, hmem, rfl⟩
    simp [hdecl, hparams, bindParams, Value.word]
  · simpa [Method.ampScope] using hx

/-- **A handler keeps signed integers where no negative word is widened or ordered.**  The C takes
the branches of the source and emits its values, in their order. -/
theorem amp_preserved {h : Host} {ms : List Method} {m : Method} {code : List AmpStmt}
    {ivars : String → Value} {words : Nat → BitVec 32} (hm : m ∈ ms)
    (hcode : ampHandler ms m = .ok code) (hfrag : ampFragmentAll m.body = true)
    (hlocals : ∀ x, .loc x ∈ collectAll varRef m.body → x ∈ m.names) (hnames : m.NamesApart)
    (horder : collectAll reordered m.body = []) (hnum : ∀ x, (ivars x).numeric = true)
    (hwords : ∀ x ∈ ampIvars ms, words (ampIvarSlot ms x) = (ivars x).word.setWidth 32)
    (hrange : ∀ s ∈ m.watch h ivars, ∀ w ∈ s.words, InRange w)
    (hkept : ∀ s ∈ m.watch h ivars, s.Kept) (locals : String → Word) (tmps : Nat → Word) :
    (callAmp code words locals tmps).trace = (m.watch h ivars).filterMap Seen.shown ∧
    (callAmp code words locals tmps).trace.filterMap AmpEvent.sent =
      emitted (m.call h [] ivars).2.trace := by
  obtain ⟨hparams, o, r, ho, rfl⟩ := ampHandler_ok hcode
  have hscope : ∀ y ∈ collectAll varRef m.body, y ∈ m.ampScope ms := by
    intro y hy
    cases y with
    | loc x => simpa [Method.ampScope] using hlocals x hy
    | ivar x =>
        have hx : x ∈ ampIvars ms := List.mem_eraseDups.mpr
          (List.mem_flatMap.mpr ⟨m, hm, mem_ivarUsesAll m.body hy⟩)
        simpa [Method.ampScope] using hx
  obtain ⟨v, σ', c', he, _, _, hrun⟩ := ampSimAll (places hnames) m.body ⟨hfrag, hscope, horder⟩ ho
    (start_ampRel hparams hnum hwords locals tmps) fun s hs => ⟨hrange s hs, hkept s hs⟩
  have hcall : (m.call h [] ivars).2 = σ' := by simp [Method.call, he]
  have hstate : callAmp (m.declared.map (fun s => .assign s (.int 0)) ++ o.code ++ [.ret r]) words
      locals tmps = c' := by
    simp only [callAmp, execAmpAll_append, declare_amp, andThen_ok, hrun.exec, execAmpAll_cons,
      AmpStmt.exec, andThen_exit]
  rw [hstate, hcall]
  exact ⟨hrun.trace.trans (List.nil_append _), hrun.rel.emits⟩

/-- `def tick; @n += 1; x = @n - 3; if x > 0 then spnl_emit(x) else spnl_emit(@n) end; end`. -/
def tick : Method where
  params := []
  body := [.iopwrite "n" .add (.int 1), .lwrite "x" (.binop .sub (.ivar "n") (.int 3)),
    .ifNode (.binop .gt (.lvar "x") (.int 0)) [.emit (.lvar "x")] [.emit (.ivar "n")]]
  void := true

/-- Ruby, where nothing is called. -/
def alone : Host := .ruby fun _ _ ivars => (.nil, ivars)

theorem tick_watch : tick.watch alone (fun _ => .int 6#64) =
    [.value 1#64, .value 7#64, .value 7#64, .value 3#64, .value 4#64, .widen .u32 4#64,
      .value 4#64, .value 0#64, .widen .s64 4#64, .widen .int 0#64, .compare .gt .s64 4#64 0#64,
      .branch true, .value 4#64, .widen .s64 4#64, .emit 4#64] := by
  simp [Method.watch, tick, noteWiden, Value.word, ampTy, CTy.join, BinOp.compute, BinOp.comparison,
    applyOp, BinOp.ruby, BinOp.rubyInt, Value.truthy]

theorem amp_preserved_tick : ∃ code, ampHandler [tick] tick = .ok code ∧
    (callAmp code (fun _ => 6#32) (fun _ => 0#64) (fun _ => 0#64)).trace =
      [.branch true, .emit 4#64] := by
  refine ⟨_, rfl, ?_⟩
  have h := (@amp_preserved alone [tick] tick _
    (fun _ => .int 6#64) (fun _ => 6#32) (by simp) rfl (by decide)
    (by simp [tick, collect, collectAll, varRef, Method.names, localWrite]) (by decide) (by decide)
    (fun _ => rfl) (fun _ _ => rfl) (by simp [tick_watch, Seen.words, InRange])
    (by simp [tick_watch, Seen.Kept])
    (fun _ => 0#64) (fun _ => 0#64)).1
  rw [h, tick_watch]
  rfl

/-- `def drop; @x = -1; spnl_emit(@x); end`. -/
def negative : Method where
  params := []
  body := [.iwrite "x" (.int (-1)), .emit (.ivar "x")]
  void := true

/-- **A negative instance variable is emitted as a positive number**: Ruby emits -1 and the C code
2^32 - 1. -/
theorem negative_ivar_emitted : ∃ code, ampHandler [negative] negative = .ok code ∧
    (∀ s ∈ negative.watch alone (fun _ => .nil), ∀ w ∈ s.words, InRange w) ∧
    emitted (negative.call alone [] (fun _ => .nil)).2.trace = [-1#64] ∧
    (callAmp code (fun _ => 0#32) (fun _ => 0#64) (fun _ => 0#64)).trace =
      [.emit 4294967295#64] := by
  refine ⟨_, rfl, ?_, rfl, rfl⟩
  simp [Method.watch, negative, noteWiden, Value.word, ampTy, Seen.words, InRange]

end SpinelEbpf.Codegen

import SpinelEbpf.Codegen.Fragment

/-!
# Codegen — Runs of the source

What a run of the source leaves alone.  `eval_keeps` is the one induction: a relation between
states that every effect of the nodes run keeps, and that blocks keep, holds between the states
before and after.  From it come that an instance variable not assigned is kept (`eval_ivars`), that
a run only adds to the trace (`eval_trace`) and that it logs no call that is passed over
(`eval_calls`).

`eval_congr` compares hosts: a run that meets no call passed over and no bound counted
differently is the same in both.
-/

namespace SpinelEbpf.Codegen
open Outcome

/-! ### One induction for all frames -/

/-- Every node of the list assigns and calls only what is allowed. -/
structure Within (L I : String → Prop) (S : Nat → Prop) (ns : List Node) : Prop where
  locals : ∀ x ∈ collectAll localWrite ns, L x
  ivars : ∀ x ∈ collectAll ivarWrite ns, I x
  sites : ∀ s ∈ collectAll callSite ns, S s

/-- The lists of nodes right below a node. -/
def children : Node → List (List Node)
  | .int _ | .lvar _ | .ivar _ => []
  | .binop _ l r | .and l r | .or l r => [[l], [r]]
  | .lwrite _ v | .iwrite _ v | .iopwrite _ _ v | .emit v => [[v]]
  | .paren ns | .ret ns | .call _ _ ns => [ns]
  | .ifNode p t e => [[p], t, e]
  | .times r _ _ body => [[r], body]

theorem collectAll_children {α : Type} (f : Node → List α) {n : Node} {ms : List Node}
    (h : ms ∈ children n) : collectAll f ms ⊆ collectAll f [n] := by
  intro a ha
  cases n <;> simp only [children, List.mem_cons, List.not_mem_nil, or_false] at h <;>
    simp only [collectAll, collect, List.append_nil, List.mem_append] <;>
    rcases h with rfl | rfl | rfl <;> simp_all [collectAll]

namespace Within

variable {L I : String → Prop} {S : Nat → Prop} {n : Node} {ms ns : List Node}

theorem child (hw : Within L I S [n]) (h : ms ∈ children n) : Within L I S ms :=
  ⟨fun x hx => hw.locals x (collectAll_children _ h hx),
    fun x hx => hw.ivars x (collectAll_children _ h hx),
    fun s hs => hw.sites s (collectAll_children _ h hs)⟩

theorem head (hw : Within L I S (n :: ns)) : Within L I S [n] :=
  ⟨fun x hx => hw.locals x (by simp_all [collectAll]),
    fun x hx => hw.ivars x (by simp_all [collectAll]),
    fun s hs => hw.sites s (by simp_all [collectAll])⟩

theorem tail (hw : Within L I S (n :: ns)) : Within L I S ns :=
  ⟨fun x hx => hw.locals x (by simp_all [collectAll]),
    fun x hx => hw.ivars x (by simp_all [collectAll]),
    fun s hs => hw.sites s (by simp_all [collectAll])⟩

end Within

/-- A relation that the effects of a run keep. -/
structure Keeps (h : Host) (R : RState → RState → Prop) (L I : String → Prop)
    (S : Nat → Prop) : Prop where
  refl : ∀ σ, R σ σ
  trans : ∀ {σ₁ σ₂ σ₃}, R σ₁ σ₂ → R σ₂ σ₃ → R σ₁ σ₃
  setLocal : ∀ σ x v, L x → R σ (σ.setLocal x v)
  setIvar : ∀ σ x v, I x → R σ (σ.setIvar x v)
  emit : ∀ σ w, R σ (σ.log (.emit w))
  loop : ∀ σ w, R σ (σ.log (.loop w))
  call : ∀ (σ : RState) site as ivars, S site → h.omits site = false →
    R σ ({ σ with ivars := ivars }.log (.call site as))
  block : ∀ (σ σ' : RState) param i own, R (σ.enterBlock param i own) σ' →
    R σ (σ'.leaveBlock σ param own)

section

variable {h : Host} {R : RState → RState → Prop} {L I : String → Prop} {S : Nat → Prop}

theorem Keeps.andThen {α β : Type} (hk : Keeps h R L I S) {σ : RState}
    {r : Outcome RExit α × RState} {k : α → RState → Outcome RExit β × RState} (hr : R σ r.2)
    (hcont : ∀ a σ', R σ' (k a σ').2) : R σ (Outcome.andThen r k).2 := by
  obtain ⟨a | e, σ'⟩ := r
  · exact hk.trans hr (hcont a σ')
  · exact hr

theorem Keeps.applyOp (hk : Keeps h R L I S) (op : BinOp) (a b : Value)
    {k : Value → RState → Outcome RExit Value × RState} (hcont : ∀ v σ, R σ (k v σ).2)
    (σ : RState) : R σ (applyOp op a b k σ).2 := by
  unfold Codegen.applyOp
  cases op.ruby a b with
  | none => exact hk.refl σ
  | some v => exact hcont v σ

theorem Keeps.runBlock (hk : Keeps h R L I S) {body : RState → Outcome RExit Value × RState}
    (hbody : ∀ σ, R σ (body σ).2) (param : String) (own : List String) (i : Nat) (σ : RState) :
    R σ (runBlock body param own i σ).2 := by
  have hin := hk.block σ _ param i own (hbody (σ.enterBlock param i own))
  unfold Codegen.runBlock
  rcases hrun : body (σ.enterBlock param i own) with ⟨v | e, σ'⟩
  · simpa only [hrun] using hin
  · simpa only [hrun] using hin

theorem Keeps.repeatFrom (hk : Keeps h R L I S) {body : Nat → RState → Outcome RExit Unit × RState}
    (hbody : ∀ i σ, R σ (body i σ).2) (n i : Nat) (σ : RState) :
    R σ (Outcome.repeatFrom body n i σ).2 := by
  induction n generalizing i σ with
  | zero => exact hk.refl σ
  | succ n ih => exact hk.andThen (hbody i σ) fun _ σ' => ih (i + 1) σ'

mutual

/-- **What the effects keep, a run keeps.** -/
theorem eval_keeps (hk : Keeps h R L I S) :
    ∀ n : Node, Within L I S [n] → ∀ σ, R σ (eval h n σ).2
  | .int _, _, σ | .lvar _, _, σ | .ivar _, _, σ => hk.refl σ
  | .binop op l r, hw, σ => by
      have hl := eval_keeps hk l (hw.child (by simp [children]))
      have hr := eval_keeps hk r (hw.child (by simp [children]))
      exact hk.andThen (hl σ) fun a σ => hk.andThen (hr σ) fun b σ =>
        hk.applyOp op a b (fun _ σ => hk.refl σ) σ
  | .and l r, hw, σ => by
      have hl := eval_keeps hk l (hw.child (by simp [children]))
      have hr := eval_keeps hk r (hw.child (by simp [children]))
      refine hk.andThen (hl σ) fun a σ => ?_
      cases a.truthy
      · exact hk.refl σ
      · exact hr σ
  | .or l r, hw, σ => by
      have hl := eval_keeps hk l (hw.child (by simp [children]))
      have hr := eval_keeps hk r (hw.child (by simp [children]))
      refine hk.andThen (hl σ) fun a σ => ?_
      cases a.truthy
      · exact hr σ
      · exact hk.refl σ
  | .paren body, hw, σ =>
      evalAll_keeps hk body (hw.child (by simp [children])) σ
  | .lwrite x v, hw, σ => by
      have hv := eval_keeps hk v (hw.child (by simp [children]))
      have hx := hw.locals x (by simp [collectAll, collect, localWrite])
      exact hk.andThen (hv σ) fun a σ => hk.setLocal σ x a hx
  | .iwrite x v, hw, σ => by
      have hv := eval_keeps hk v (hw.child (by simp [children]))
      have hx := hw.ivars x (by simp [collectAll, collect, ivarWrite])
      exact hk.andThen (hv σ) fun a σ => hk.setIvar σ x a hx
  | .iopwrite x op v, hw, σ => by
      have hv := eval_keeps hk v (hw.child (by simp [children]))
      have hx := hw.ivars x (by simp [collectAll, collect, ivarWrite])
      exact hk.andThen (hv σ) fun b σ' =>
        hk.applyOp op _ b (fun v σ => hk.setIvar σ x v hx) σ'
  | .ret args, hw, σ => by
      have ha := evalAll_keeps hk args (hw.child (by simp [children]))
      exact hk.andThen (ha σ) fun _ σ => hk.refl σ
  | .ifNode p t e, hw, σ => by
      have hp := eval_keeps hk p (hw.child (by simp [children]))
      have ht := evalAll_keeps hk t (hw.child (by simp [children]))
      have he := evalAll_keeps hk e (hw.child (by simp [children]))
      refine hk.andThen (hp σ) fun a σ => ?_
      cases a.truthy
      · exact he σ
      · exact ht σ
  | .emit v, hw, σ => by
      have hv := eval_keeps hk v (hw.child (by simp [children]))
      exact hk.andThen (hv σ) fun a σ => hk.emit σ a.word
  | .call site f args, hw, σ => by
      have ha := evalArgs_keeps hk args (hw.child (by simp [children]))
      have hs := hw.sites site (by simp [collectAll, collect, callSite])
      refine hk.andThen (ha σ) fun as σ => ?_
      cases hom : h.omits site with
      | true => exact hk.refl σ
      | false => exact hk.call σ site as _ hs hom
  | .times r param own body, hw, σ => by
      have hr := eval_keeps hk r (hw.child (by simp [children]))
      have hb := evalAll_keeps hk body (hw.child (by simp [children]))
      refine hk.andThen (hr σ) fun n σ => hk.andThen ?_ fun _ σ => hk.refl σ
      exact hk.trans (hk.loop σ n.word) (hk.repeatFrom (hk.runBlock hb param own) _ 0 _)

theorem evalAll_keeps (hk : Keeps h R L I S) :
    ∀ ns : List Node, Within L I S ns → ∀ σ, R σ (evalAll h ns σ).2
  | [], _, σ => hk.refl σ
  | [n], hw, σ => eval_keeps hk n hw σ
  | n :: m :: ns, hw, σ => by
      have hn := eval_keeps hk n hw.head
      have hns := evalAll_keeps hk (m :: ns) hw.tail
      exact hk.andThen (hn σ) fun _ σ => hns σ

theorem evalArgs_keeps (hk : Keeps h R L I S) :
    ∀ ns : List Node, Within L I S ns → ∀ σ, R σ (evalArgs h ns σ).2
  | [], _, σ => hk.refl σ
  | n :: ns, hw, σ => by
      have hn := eval_keeps hk n hw.head
      have hns := evalArgs_keeps hk ns hw.tail
      exact hk.andThen (hn σ) fun _ σ => hk.andThen (hns σ) fun _ σ => hk.refl σ

end

end

/-! ### What a run leaves alone -/

section

variable (h : Host)

/-- An instance variable that is not assigned keeps its value, if nothing is called. -/
theorem eval_ivars {n : Node} {x : String} (hx : x ∉ collect ivarWrite n)
    (hcalls : collect callSite n = []) (σ : RState) : (eval h n σ).2.ivars x = σ.ivars x := by
  have hk : Keeps h (fun σ σ' => σ'.ivars x = σ.ivars x) (fun _ => True) (· ≠ x)
      (fun _ => False) :=
    { refl := fun _ => rfl
      trans := fun h₁ h₂ => h₂.trans h₁
      setLocal := fun _ _ _ _ => rfl
      setIvar := fun σ y v hy => by simp [Ne.symm hy]
      emit := fun _ _ => rfl
      loop := fun _ _ => rfl
      call := fun _ _ _ _ hs _ => hs.elim
      block := fun _ _ _ _ _ hin => hin }
  refine eval_keeps hk n ⟨fun _ _ => trivial, fun y hy => ?_, fun s hs => ?_⟩ σ
  · rintro rfl
    exact hx (by simpa [collectAll] using hy)
  · simp [collectAll, hcalls] at hs

theorem keeps_trace :
    Keeps h (fun σ σ' => σ.trace <+: σ'.trace) (fun _ => True) (fun _ => True) (fun _ => True) where
  refl _ := List.prefix_refl _
  trans := List.IsPrefix.trans
  setLocal _ _ _ _ := List.prefix_append _ _
  setIvar _ _ _ _ := List.prefix_append _ _
  emit _ _ := List.prefix_append _ _
  loop _ _ := List.prefix_append _ _
  call _ _ _ _ _ _ := List.prefix_append _ _
  block _ _ _ _ _ hin := hin

theorem within_true (ns : List Node) :
    Within (fun _ => True) (fun _ => True) (fun _ => True) ns :=
  ⟨fun _ _ => trivial, fun _ _ => trivial, fun _ _ => trivial⟩

end

/-! ### Nodes without effect -/

/-- A result that left the state alone and did not return. -/
def Still {α : Type} (r : Outcome RExit α × RState) (σ : RState) : Prop :=
  r.2 = σ ∧ ∀ v, r.1 ≠ .exit (.ret v)

theorem Still.andThen {α β : Type} {r : Outcome RExit α × RState} {σ : RState}
    {k : α → RState → Outcome RExit β × RState} (hr : Still r σ) (hk : ∀ a, Still (k a σ) σ) :
    Still (Outcome.andThen r k) σ := by
  obtain ⟨a | e, σ'⟩ := r
  · obtain rfl : σ' = σ := hr.1
    exact hk a
  · exact ⟨hr.1, fun v hv => hr.2 v (by simpa using hv)⟩

theorem still_ok (v : Value) (σ : RState) : Still (.ok v, σ) σ := ⟨rfl, fun _ => nofun⟩

theorem Still.applyOp (op : BinOp) (a b : Value) (σ : RState) :
    Still (applyOp op a b (fun v σ => (.ok v, σ)) σ) σ := by
  unfold Codegen.applyOp
  cases op.ruby a b with
  | none => exact ⟨rfl, fun _ => nofun⟩
  | some v => exact still_ok v σ

mutual

theorem quiet_still {h : Host} : ∀ n : Node, quiet n = true → ∀ σ, Still (eval h n σ) σ
  | .int _, _, σ | .lvar _, _, σ | .ivar _, _, σ => still_ok _ σ
  | .binop op l r, hq, σ => by
      obtain ⟨hl, hr⟩ := Bool.and_eq_true_iff.mp hq
      exact (quiet_still l hl σ).andThen fun a => (quiet_still r hr σ).andThen fun b =>
        .applyOp op a b σ
  | .and l r, hq, σ => by
      obtain ⟨hl, hr⟩ := Bool.and_eq_true_iff.mp hq
      refine (quiet_still l hl σ).andThen fun a => ?_
      cases a.truthy
      · exact still_ok a σ
      · exact quiet_still r hr σ
  | .or l r, hq, σ => by
      obtain ⟨hl, hr⟩ := Bool.and_eq_true_iff.mp hq
      refine (quiet_still l hl σ).andThen fun a => ?_
      cases a.truthy
      · exact quiet_still r hr σ
      · exact still_ok a σ
  | .paren body, hq, σ => quietAll_still body hq σ
  | .ifNode p t e, hq, σ => by
      obtain ⟨hpt, he⟩ := Bool.and_eq_true_iff.mp hq
      obtain ⟨hp, ht⟩ := Bool.and_eq_true_iff.mp hpt
      refine (quiet_still p hp σ).andThen fun a => ?_
      cases a.truthy
      · exact quietAll_still e he σ
      · exact quietAll_still t ht σ

theorem quietAll_still {h : Host} :
    ∀ ns : List Node, quietAll ns = true → ∀ σ, Still (evalAll h ns σ) σ
  | [], _, σ => still_ok .nil σ
  | [n], hq, σ => quiet_still n (Bool.and_eq_true_iff.mp hq).1 σ
  | n :: m :: ns, hq, σ => by
      obtain ⟨hn, hns⟩ := Bool.and_eq_true_iff.mp hq
      exact (quiet_still n hn σ).andThen fun _ => quietAll_still (m :: ns) hns σ

end

/-! ### Two hosts -/

/-- An event that another host makes as well: the call is not passed over there, the bound counts
for as many rounds. -/
def Fine (h h' : Host) : Event → Prop
  | .call site _ => h'.omits site = false
  | .loop w => h'.rounds w = h.rounds w
  | _ => True

section

variable {h h' : Host}

/-- Every event of a result is one the other host makes. -/
def AllFine {α : Type} (h h' : Host) (r : Outcome RExit α × RState) : Prop :=
  ∀ e ∈ r.2.trace, Fine h h' e

theorem andThen_congr {α β : Type} {r r' : Outcome RExit α × RState}
    {k k' : α → RState → Outcome RExit β × RState} (hfine : AllFine h h' (andThen r k))
    (hpre : ∀ a σ, σ.trace <+: (k a σ).2.trace) (hr : AllFine h h' r → r' = r)
    (hk : ∀ a σ, AllFine h h' (k a σ) → k' a σ = k a σ) : andThen r' k' = andThen r k := by
  obtain ⟨a | e, σ⟩ := r
  · have hfst : AllFine h h' (((.ok a, σ)) : Outcome RExit α × RState) :=
      fun ev hev => hfine ev ((hpre a σ).subset hev)
    rw [hr hfst]
    exact hk a σ hfine
  · rw [hr hfine]
    rfl

theorem runBlock_congr {body body' : RState → Outcome RExit Value × RState}
    (hbody : ∀ σ, AllFine h h' (body σ) → body' σ = body σ) (param : String) (own : List String)
    (i : Nat) (σ : RState) (hfine : AllFine h h' (runBlock body param own i σ)) :
    runBlock body' param own i σ = runBlock body param own i σ := by
  have hin : AllFine h h' (body (σ.enterBlock param i own)) := by
    intro e he
    refine hfine e ?_
    unfold runBlock
    rcases hrun : body (σ.enterBlock param i own) with ⟨v | x, σ'⟩ <;> simpa [hrun] using he
  unfold runBlock
  rw [hbody _ hin]

theorem repeatFrom_congr {body body' : Nat → RState → Outcome RExit Unit × RState}
    (hpre : ∀ i σ, σ.trace <+: (body i σ).2.trace)
    (hbody : ∀ i σ, AllFine h h' (body i σ) → body' i σ = body i σ) (n i : Nat) (σ : RState)
    (hfine : AllFine h h' (repeatFrom body n i σ)) :
    repeatFrom body' n i σ = repeatFrom body n i σ := by
  induction n generalizing i σ with
  | zero => rfl
  | succ n ih =>
      exact andThen_congr hfine (fun _ σ => (keeps_trace h).repeatFrom hpre n (i + 1) σ)
        (hbody i σ) fun _ σ hσ => ih (i + 1) σ hσ

/-- The same callees, and nothing passed over in the first host. -/
structure Alike (h h' : Host) : Prop where
  callee : h'.callee = h.callee
  calls : ∀ site, h.omits site = false

/-- The trace grows. -/
theorem eval_grows (n : Node) (σ : RState) : σ.trace <+: (eval h n σ).2.trace :=
  eval_keeps (keeps_trace h) n (within_true _) σ

theorem evalAll_grows (ns : List Node) (σ : RState) : σ.trace <+: (evalAll h ns σ).2.trace :=
  evalAll_keeps (keeps_trace h) ns (within_true _) σ

mutual

/-- **A run all of whose events are fine is the run in the other host.** -/
theorem eval_congr (hh : Alike h h') : ∀ (n : Node) (σ : RState), AllFine h h' (eval h n σ) →
    eval h' n σ = eval h n σ
  | .int _, _, _ | .lvar _, _, _ | .ivar _, _, _ => rfl
  | .binop op l r, σ, hf =>
      andThen_congr hf
        (fun a σ => (keeps_trace h).andThen (eval_grows r σ)
          fun b σ => (keeps_trace h).applyOp op a b (fun _ _ => List.prefix_refl _) σ)
        (eval_congr hh l σ) fun a σ hf => andThen_congr hf
          (fun b σ => (keeps_trace h).applyOp op a b (fun _ _ => List.prefix_refl _) σ)
          (eval_congr hh r σ) fun _ _ _ => rfl
  | .and l r, σ, hf => by
      refine andThen_congr hf (fun a σ => ?_) (eval_congr hh l σ) fun a σ hf => ?_
      · cases a.truthy
        · exact List.prefix_refl _
        · exact eval_grows r σ
      · cases hv : a.truthy
        · rfl
        · exact eval_congr hh r σ (by simpa [hv] using hf)
  | .or l r, σ, hf => by
      refine andThen_congr hf (fun a σ => ?_) (eval_congr hh l σ) fun a σ hf => ?_
      · cases a.truthy
        · exact eval_grows r σ
        · exact List.prefix_refl _
      · cases hv : a.truthy
        · exact eval_congr hh r σ (by simpa [hv] using hf)
        · rfl
  | .paren body, σ, hf => evalAll_congr hh body σ hf
  | .lwrite _ v, σ, hf | .iwrite _ v, σ, hf | .emit v, σ, hf =>
      andThen_congr hf (fun _ _ => List.prefix_append _ _) (eval_congr hh v σ) fun _ _ _ => rfl
  | .iopwrite x op v, σ, hf =>
      andThen_congr hf
        (fun b σ' => (keeps_trace h).applyOp op _ b (fun _ _ => List.prefix_append _ _) σ')
        (eval_congr hh v σ) fun _ _ _ => rfl
  | .ret args, σ, hf =>
      andThen_congr hf (fun _ _ => List.prefix_refl _) (evalAll_congr hh args σ) fun _ _ _ => rfl
  | .ifNode p t e, σ, hf => by
      refine andThen_congr hf (fun a σ => ?_) (eval_congr hh p σ) fun a σ hf => ?_
      · cases a.truthy
        · exact evalAll_grows e σ
        · exact evalAll_grows t σ
      · cases hv : a.truthy
        · exact evalAll_congr hh e σ (by simpa [hv] using hf)
        · exact evalAll_congr hh t σ (by simpa [hv] using hf)
  | .call site f args, σ, hf => by
      refine andThen_congr hf (fun as σ => ?_) (evalArgs_congr hh args σ) fun as σ hf => ?_
      · simp [hh.calls site]
      · -- the call itself is the event that says it is not passed over
        have hcall : h'.omits site = false :=
          hf (.call site as) (by simp [hh.calls site])
        simp [hcall, hh.calls site, hh.callee]
  | .times r param own body, σ, hf => by
      have hpre : ∀ i σ, σ.trace <+: (runBlock (evalAll h body) param own i σ).2.trace :=
        (keeps_trace h).runBlock (evalAll_grows body) param own
      have hloop := fun (n : Value) (σ : RState) =>
        (keeps_trace h).repeatFrom hpre (h.rounds n.word) 0 (σ.log (.loop n.word))
      refine andThen_congr hf (fun n σ => ?_) (eval_congr hh r σ) fun n σ hf => ?_
      · exact (keeps_trace h).andThen ((List.prefix_append _ _).trans (hloop n σ))
          fun _ _ => List.prefix_refl _
      · refine andThen_congr hf (fun _ _ => List.prefix_refl _) (fun hf => ?_) fun _ _ _ => rfl
        -- the bound is logged before the first round
        have hrounds : h'.rounds n.word = h.rounds n.word :=
          hf (.loop n.word) ((hloop n σ).subset (by simp))
        rw [hrounds]
        exact repeatFrom_congr hpre
          (runBlock_congr (fun σ hf => evalAll_congr hh body σ hf) param own) _ 0 _ hf

theorem evalAll_congr (hh : Alike h h') :
    ∀ (ns : List Node) (σ : RState), AllFine h h' (evalAll h ns σ) → evalAll h' ns σ = evalAll h ns σ
  | [], _, _ => rfl
  | [n], σ, hf => eval_congr hh n σ hf
  | n :: m :: ns, σ, hf =>
      andThen_congr hf (fun _ σ => evalAll_grows (m :: ns) σ)
        (eval_congr hh n σ) fun _ σ hf => evalAll_congr hh (m :: ns) σ hf

theorem evalArgs_congr (hh : Alike h h') :
    ∀ (ns : List Node) (σ : RState), AllFine h h' (evalArgs h ns σ) → evalArgs h' ns σ = evalArgs h ns σ
  | [], _, _ => rfl
  | n :: ns, σ, hf =>
      andThen_congr hf
        (fun _ σ => (keeps_trace h).andThen (evalArgs_keeps (keeps_trace h) ns (within_true _) σ)
          fun _ _ => List.prefix_refl _)
        (eval_congr hh n σ) fun _ σ hf => andThen_congr hf (fun _ _ => List.prefix_refl _)
          (evalArgs_congr hh ns σ) fun _ _ _ => rfl

end

end

end SpinelEbpf.Codegen

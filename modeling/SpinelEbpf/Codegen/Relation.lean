import SpinelEbpf.Codegen.Alike
import SpinelEbpf.Codegen.Runs

/-!
# Codegen — The relation between the two runs

`Rel` relates the state of a run of the source to that of the generated code: the variables in
scope, the maps behind the instance variables, and the effects so far.  A lowered value is a text
that is evaluated later (`Held`): it stays what it is while the temporaries it was made with stay
(`Frame`) and the variables it reads do (`Stable`).  The text of a call is different, evaluating it
makes the call (`Consumed`).
-/

namespace SpinelEbpf.Codegen
open Outcome

/-! ### States -/

/-- The event of the generated code. -/
def Event.toC (ctx : Ctx) : Event → Event
  | .setLocal x w => .setLocal (safeDup x) w
  | .setIvar x w => .setIvar (ctx.ivarMap x) w
  | e => e

/-- Two states correspond. -/
structure Rel (ctx : Ctx) (sc : Scope) (σ : RState) (c : CState) : Prop where
  own : ∀ x ∈ sc.own, c.vars (.user (safeDup x)) = (σ.locals x).word
  outer : ∀ x ∈ sc.outer, c.caps (safeDup x) = (σ.locals x).word
  ivars : ∀ x, c.maps (ctx.ivarMap x) = (σ.ivars x).word
  trace : c.trace = σ.trace.map (Event.toC ctx)
  slot : c.slot = sc.slot
  hidden : ∀ p ∈ sc.hidden, c.caps p.1 = p.2

/-- The temporaries up to `k` are as they were. -/
structure Frame (k : Nat) (c c' : CState) : Prop where
  val : ∀ n ≤ k, c'.vars (.val n) = c.vars (.val n)
  ifTmp : ∀ n ≤ k, c'.vars (.ifTmp n) = c.vars (.ifTmp n)
  ptr : ∀ n ≤ k, c'.ptrs n = c.ptrs n

theorem Frame.refl (k : Nat) (c : CState) : Frame k c c :=
  ⟨fun _ _ => rfl, fun _ _ => rfl, fun _ _ => rfl⟩

variable {k : Nat} {c c' : CState} {x : String}

/-- Frames compose, those of a later start being the stronger. -/
theorem Frame.trans {l : Nat} {c₁ c₂ c₃ : CState} (h₁ : Frame k c₁ c₂) (h₂ : Frame l c₂ c₃)
    (hkl : k ≤ l) : Frame k c₁ c₃ :=
  ⟨fun n hn => (h₂.val n (hn.trans hkl)).trans (h₁.val n hn),
    fun n hn => (h₂.ifTmp n (hn.trans hkl)).trans (h₁.ifTmp n hn),
    fun n hn => (h₂.ptr n (hn.trans hkl)).trans (h₁.ptr n hn)⟩

theorem Frame.mono {j : Nat} (h : Frame k c c') (hjk : j ≤ k) : Frame j c c' :=
  (Frame.refl j c).trans h hjk

/-- Nothing but temporaries matters for a frame. -/
theorem Frame.of_eq (hvars : ∀ x, (∀ s, x ≠ .user s) → c'.vars x = c.vars x)
    (hptrs : c'.ptrs = c.ptrs) (k : Nat) : Frame k c c' :=
  ⟨fun _ _ => hvars _ nofun, fun _ _ => hvars _ nofun, fun n _ => congrFun hptrs n⟩

/-- No two names in scope are the same in C. -/
structure Scope.Apart (sc : Scope) : Prop where
  inj : ∀ x ∈ sc.own ++ sc.outer, ∀ y ∈ sc.own ++ sc.outer, safeDup x = safeDup y → x = y
  disj : ∀ x ∈ sc.own, x ∉ sc.outer
  hidden : ∀ p ∈ sc.hidden, ∀ x ∈ sc.outer, p.1 ≠ safeDup x

/-- A local in scope may be assigned. -/
theorem Scope.Apart.add {ctx : Ctx} {sc : Scope} (hsc : sc.Apart) (hx : sc.sees ctx x = true) :
    (sc.add ctx x).Apart := by
  unfold Scope.sees at hx
  unfold Scope.add
  by_cases hcap : safeDup x ∈ ctx.captures
  · rw [if_pos hcap] at hx ⊢
    have hsub : x :: sc.outer ⊆ sc.outer := List.cons_subset.mpr ⟨by simpa using hx, fun _ => id⟩
    have hall : sc.own ++ x :: sc.outer ⊆ sc.own ++ sc.outer := fun y hy =>
      List.mem_append.mpr ((List.mem_append.mp hy).imp_right (@hsub y))
    exact ⟨fun y hy z hz => hsc.inj y (hall hy) z (hall hz),
      fun y hy hout => hsc.disj y hy (hsub hout), fun p hp y hy => hsc.hidden p hp y (hsub hy)⟩
  · rw [if_neg hcap] at hx ⊢
    have hsub : x :: sc.own ⊆ sc.own := List.cons_subset.mpr ⟨by simpa using hx, fun _ => id⟩
    have hall : x :: sc.own ++ sc.outer ⊆ sc.own ++ sc.outer := fun y hy =>
      List.mem_append.mpr ((List.mem_append.mp hy).imp_left (@hsub y))
    exact ⟨fun y hy z hz => hsc.inj y (hall hy) z (hall hz), fun y hy => hsc.disj y (hsub hy),
      hsc.hidden⟩

theorem Ctx.ivarMap_inj (ctx : Ctx) {y : String} (h : ctx.ivarMap x = ctx.ivarMap y) : x = y :=
  String.append_right_inj _ |>.mp h

namespace Rel

variable {ctx : Ctx} {sc : Scope} {σ : RState}

/-- Assigning a generated temporary is no effect. -/
theorem setTmp (hr : Rel ctx sc σ c) {x : CVar} (hx : ∀ s, x ≠ .user s) (w : Word) :
    Rel ctx sc σ (c.setVar x w) := by
  refine ⟨fun y hy => ?_, hr.outer, hr.ivars, hr.trace, hr.slot, hr.hidden⟩
  rw [← hr.own y hy]
  exact Function.update_of_ne (hx (safeDup y)).symm w c.vars

theorem setPtr (hr : Rel ctx sc σ c) (p : Nat) (m : String) : Rel ctx sc σ (c.setPtr p m) :=
  ⟨hr.own, hr.outer, hr.ivars, hr.trace, hr.slot, hr.hidden⟩

/-- The same effect in both. -/
theorem log (hr : Rel ctx sc σ c) (e : Event) : Rel ctx sc (σ.log e) (c.log (e.toC ctx)) :=
  ⟨hr.own, hr.outer, hr.ivars, by simp [hr.trace], hr.slot, hr.hidden⟩

/-- The text of a local. -/
theorem readLocal (hr : Rel ctx sc σ c) (hx : sc.sees ctx x = true) (ch : CHost) :
    (ctx.readLocal (safeDup x)).eval ch c = ((σ.locals x).word, c) := by
  unfold Scope.sees at hx
  unfold Ctx.readLocal
  by_cases hcap : safeDup x ∈ ctx.captures
  · rw [if_pos hcap] at hx ⊢
    simp [CExpr.eval, hr.outer x (by simpa using hx)]
  · rw [if_neg hcap] at hx ⊢
    simp [CExpr.eval, hr.own x (by simpa using hx)]

theorem trace_setLocal (hr : Rel ctx sc σ c) (x : String) (v : Value) :
    c.trace ++ [.setLocal (safeDup x) v.word] = (σ.setLocal x v).trace.map (Event.toC ctx) := by
  simp [hr.trace, Event.toC]

/-- An assignment to a local of the function itself. -/
theorem setOwn (hr : Rel ctx sc σ c) (hsc : ({ sc with own := x :: sc.own } : Scope).Apart)
    (v : Value) :
    Rel ctx { sc with own := x :: sc.own } (σ.setLocal x v)
      ((c.setVar (.user (safeDup x)) v.word).log (.setLocal (safeDup x) v.word)) := by
  refine ⟨fun y hy => ?_, fun y hy => ?_, hr.ivars, hr.trace_setLocal x v, hr.slot, hr.hidden⟩
  · by_cases hxy : y = x
    · subst hxy
      simp
    · have hne : safeDup y ≠ safeDup x := fun he =>
        hxy (hsc.inj y (List.mem_append_left _ hy) x (by simp) he)
      simp [hxy, hne, hr.own y (List.mem_of_ne_of_mem hxy hy)]
  · have hxy : y ≠ x := fun he => hsc.disj x List.mem_cons_self (he ▸ hy)
    simp [hxy, hr.outer y hy]

/-- An assignment to a local of the method around a callback. -/
theorem setOuter (hr : Rel ctx sc σ c) (hsc : ({ sc with outer := x :: sc.outer } : Scope).Apart)
    (v : Value) :
    Rel ctx { sc with outer := x :: sc.outer } (σ.setLocal x v)
      ({ c with caps := Function.update c.caps (safeDup x) v.word }.log
        (.setLocal (safeDup x) v.word)) := by
  refine ⟨fun y hy => ?_, fun y hy => ?_, hr.ivars, hr.trace_setLocal x v, hr.slot, fun p hp => ?_⟩
  · have hxy : y ≠ x := fun he => hsc.disj y hy (he ▸ List.mem_cons_self)
    simp [hxy, hr.own y hy]
  · by_cases hxy : y = x
    · subst hxy
      simp
    · have hne : safeDup y ≠ safeDup x := fun he =>
        hxy (hsc.inj y (List.mem_append_right _ hy) x (by simp) he)
      simp [hxy, hne, hr.outer y (List.mem_of_ne_of_mem hxy hy)]
  · rw [← hr.hidden p hp]
    exact Function.update_of_ne (hsc.hidden p hp x List.mem_cons_self) _ _

/-- The line that assigns a local, which is in scope from then on. -/
theorem writeLocal (hr : Rel ctx sc σ c) (hsc : (sc.add ctx x).Apart) {v : Value} {ch : CHost}
    {c₀ : CState} {t : CExpr} (ht : t.eval ch c₀ = (v.word, c)) :
    ∃ c', (ctx.writeLocal (safeDup x) t).exec ch c₀ = (.ok (), c') ∧
      Rel ctx (sc.add ctx x) (σ.setLocal x v) c' ∧ ∀ k, Frame k c c' := by
  unfold Scope.add at hsc ⊢
  unfold Ctx.writeLocal
  by_cases hcap : safeDup x ∈ ctx.captures
  · simp only [if_pos hcap, CStmt.exec, ht] at hsc ⊢
    exact ⟨_, rfl, hr.setOuter hsc v, .of_eq (fun _ _ => rfl) rfl⟩
  · simp only [if_neg hcap, CStmt.exec, ht] at hsc ⊢
    refine ⟨_, rfl, hr.setOwn hsc v, .of_eq (fun y hy => ?_) rfl⟩
    simp [hy]

/-- Fewer locals in scope. -/
theorem of_add (hr : Rel ctx (sc.add ctx x) σ c) : Rel ctx sc σ c := by
  unfold Scope.add at hr
  split at hr
  · exact ⟨hr.own, fun y hy => hr.outer y (List.mem_cons_of_mem _ hy), hr.ivars, hr.trace, hr.slot,
      hr.hidden⟩
  · exact ⟨fun y hy => hr.own y (List.mem_cons_of_mem _ hy), hr.outer, hr.ivars, hr.trace, hr.slot,
      hr.hidden⟩

/-- The update of the map behind an instance variable. -/
theorem setIvar (hr : Rel ctx sc σ c) (x : String) (v : Value) :
    Rel ctx sc (σ.setIvar x v)
      ({ c with maps := Function.update c.maps (ctx.ivarMap x) v.word }.log
        (.setIvar (ctx.ivarMap x) v.word)) := by
  refine ⟨hr.own, hr.outer, fun y => ?_, by simp [hr.trace, Event.toC], hr.slot, hr.hidden⟩
  by_cases hxy : y = x
  · subst hxy
    simp
  · have hne : ctx.ivarMap y ≠ ctx.ivarMap x := fun he => hxy (ctx.ivarMap_inj he)
    simp [hxy, hne, hr.ivars y]

end Rel

/-! ### Frames of temporaries -/

namespace Frame

variable {n : Nat} (c : CState)

theorem setVal (hn : k < n) (w : Word) : Frame k c (c.setVar (.val n) w) :=
  ⟨fun m hm => by simp [show m ≠ n by omega], fun m _ => by simp, fun _ _ => rfl⟩

theorem setIf (hn : k < n) (w : Word) : Frame k c (c.setVar (.ifTmp n) w) :=
  ⟨fun m _ => by simp, fun m hm => by simp [show m ≠ n by omega], fun _ _ => rfl⟩

theorem setPtr (hn : k < n) (m : String) : Frame k c (c.setPtr n m) :=
  ⟨fun _ _ => rfl, fun _ _ => rfl, fun m hm => by simp [CState.setPtr, show m ≠ n by omega]⟩

end Frame

/-! ### Texts -/

/-- A text has the value `w`, wherever the temporaries up to `k` are as they are now and it reads
what it reads now. -/
def Stable (ch : CHost) (ctx : Ctx) (sc : Scope) (t : CExpr) (w : Word) (rd : Reads) (k : Nat)
    (σ : RState) (c : CState) : Prop :=
  ∀ σ' c', Frame k c c' → Rel ctx sc σ' c' → rd.Kept sc.slot σ σ' → t.eval ch c' = (w, c')

/-- Here and now. -/
theorem Stable.eval {ch : CHost} {ctx : Ctx} {sc : Scope} {t : CExpr} {w : Word} {rd : Reads}
    {σ : RState} (hst : Stable ch ctx sc t w rd k σ c)
    (hfr : Frame k c c') (hrel : Rel ctx sc σ c') : t.eval ch c' = (w, c') :=
  hst σ c' hfr hrel (.refl rd sc.slot σ)

/-- After the lines of a lowering the states correspond, and its text holds the value (any value,
if it is not used). -/
structure Held (ch : CHost) (ctx : Ctx) (sc : Scope) (rd : Reads) (used : Bool) (o : Out)
    (k : Nat) (c : CState) (v : Value) (σ' : RState) (c' : CState) : Prop where
  rel : Rel ctx sc σ' c'
  frame : Frame k c c'
  text : ∃ w, (used = true → w = v.word) ∧ Stable ch ctx sc o.value w rd o.fresh σ' c'

/-- After the lines of a lowering, evaluating its text makes the states correspond. -/
structure Consumed (ch : CHost) (ctx : Ctx) (sc : Scope) (used : Bool) (o : Out) (k : Nat)
    (c : CState) (v : Value) (σ' : RState) (c' : CState) : Prop where
  frame : Frame k c c'
  text : ∃ w c'', o.value.eval ch c' = (w, c'') ∧ (used = true → w = v.word) ∧
    Rel ctx sc σ' c'' ∧ Frame k c c''

namespace Held

variable {ch : CHost} {ctx : Ctx} {sc : Scope} {rd : Reads} {used : Bool} {o : Out} {v : Value}
  {σ' : RState}

theorem consumed (h : Held ch ctx sc rd used o k c v σ' c') :
    Consumed ch ctx sc used o k c v σ' c' := by
  obtain ⟨w, hw, hst⟩ := h.text
  exact ⟨h.frame, w, c', hst.eval (.refl _ _) h.rel, hw, h.rel, h.frame⟩

theorem any_use (h : Held ch ctx sc rd true o k c v σ' c') : Held ch ctx sc rd used o k c v σ' c' := by
  obtain ⟨w, hw, hst⟩ := h.text
  exact ⟨h.rel, h.frame, w, fun _ => hw rfl, hst⟩

end Held

/-- After the lines of a statement: one that is no call holds its value; a call is still to be
made if its text is kept, and is not made otherwise. -/
def After (ch : CHost) (ctx : Ctx) (sc : Scope) (rd : Reads) (call : Bool) (used kept : Bool)
    (o : Out) (k : Nat) (c : CState) (v : Value) (σ' : RState) (c' : CState) : Prop :=
  if call then
    if kept then Consumed ch ctx sc used o k c v σ' c'
    else Rel ctx sc σ' c' ∧ Frame k c c'
  else Held ch ctx sc rd used o k c v σ' c'

section

variable {ch : CHost} {ctx : Ctx} {sc : Scope} {rd : Reads} {call used kept : Bool} {o : Out}
  {v : Value} {σ' : RState}

theorem After.held (h : After ch ctx sc rd call used kept o k c v σ' c') (hcall : call = false) :
    Held ch ctx sc rd used o k c v σ' c' := by
  subst hcall
  exact h

/-- A text that will be evaluated. -/
theorem After.consumed (h : After ch ctx sc rd call used kept o k c v σ' c')
    (hkept : call = true → kept = true) : Consumed ch ctx sc used o k c v σ' c' := by
  cases call with
  | true => rwa [After, if_pos rfl, if_pos (hkept rfl)] at h
  | false => exact (h.held rfl).consumed

/-- A text that will not be. -/
theorem After.settled (h : After ch ctx sc rd call used kept o k c v σ' c')
    (hkept : call = true → kept = false) : Rel ctx sc σ' c' ∧ Frame k c c' := by
  cases call with
  | true => rwa [After, if_pos rfl, hkept rfl] at h
  | false => exact ⟨(h.held rfl).rel, (h.held rfl).frame⟩

/-- The same, seen from an earlier start. -/
theorem After.prepend {k₁ : Nat} {c₁ : CState} {o' : Out}
    (h : After ch ctx sc rd call used kept o k₁ c₁ v σ' c') (hfr : Frame k c c₁) (hk : k ≤ k₁)
    (htext : o'.text = o.text) (hfresh : o'.fresh = o.fresh) :
    After ch ctx sc rd call used kept o' k c v σ' c' := by
  have hvalue : o'.value = o.value := by rw [Out.value, Out.value, htext]
  cases call with
  | true =>
      cases kept with
      | true =>
          have hc := h.consumed fun _ => rfl
          obtain ⟨w, c'', heval, hw, hrel, hfr'⟩ := hc.text
          exact Consumed.mk (hfr.trans hc.frame hk)
            ⟨w, c'', hvalue ▸ heval, hw, hrel, hfr.trans hfr' hk⟩
      | false =>
          obtain ⟨hrel, hfr'⟩ := h.settled fun _ => rfl
          exact ⟨hrel, hfr.trans hfr' hk⟩
  | false =>
      have hh := h.held rfl
      exact Held.mk hh.rel (hfr.trans hh.frame hk) (by rw [hvalue, hfresh]; exact hh.text)

end

/-- Both return, with the same value; a method without a value returns none. -/
def Exits (ctx : Ctx) (sc : Scope) (r : RExit) (r' : Option Word) (σ : RState) (c : CState) :
    Prop :=
  sc.callback = false ∧ Rel ctx sc σ c ∧
    match r with
    | .ret v => r' = if ctx.void then none else some v.word
    | .raise => False

end SpinelEbpf.Codegen

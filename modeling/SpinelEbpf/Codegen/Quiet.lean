import SpinelEbpf.Codegen.Relation

/-!
# Codegen — Expressions without effect

The lines appended for an expression without effect run through and assign temporaries and nothing
else, and its text has one value wherever it is evaluated after them (`lower_quiet`).  This holds
whatever the expression means in Ruby, so it also covers what Ruby does not come to.
-/

namespace SpinelEbpf.Codegen
open Outcome

/-- What a local of the source holds in C. -/
def Ctx.localWord (ctx : Ctx) (c : CState) (x : String) : Word :=
  if safeDup x ∈ ctx.captures then c.caps (safeDup x) else c.vars (.user (safeDup x))

/-- Only temporaries above `k` have changed. -/
structure Settled (k : Nat) (c c' : CState) : Prop where
  user : ∀ s, c'.vars (.user s) = c.vars (.user s)
  caps : c'.caps = c.caps
  maps : c'.maps = c.maps
  trace : c'.trace = c.trace
  slot : c'.slot = c.slot
  frame : Frame k c c'

namespace Settled

variable {k l : Nat} {c c₁ c₂ : CState}

theorem refl (k : Nat) (c : CState) : Settled k c c := ⟨fun _ => rfl, rfl, rfl, rfl, rfl, .refl k c⟩

theorem trans (h₁ : Settled k c c₁) (h₂ : Settled l c₁ c₂) (hkl : k ≤ l) : Settled k c c₂ where
  user s := (h₂.user s).trans (h₁.user s)
  caps := h₂.caps.trans h₁.caps
  maps := h₂.maps.trans h₁.maps
  trace := h₂.trace.trans h₁.trace
  slot := h₂.slot.trans h₁.slot
  frame := h₁.frame.trans h₂.frame hkl

theorem mono (h : Settled l c c₁) (hkl : k ≤ l) : Settled k c c₁ := (refl k c).trans h hkl

theorem setIf (c : CState) {n : Nat} (hn : k < n) (w : Word) :
    Settled k c (c.setVar (.ifTmp n) w) :=
  ⟨fun _ => by simp, rfl, rfl, rfl, rfl, .setIf c hn w⟩

theorem setPtr (c : CState) {n : Nat} (hn : k < n) (m : String) : Settled k c (c.setPtr n m) :=
  ⟨fun _ => rfl, rfl, rfl, rfl, rfl, .setPtr c hn m⟩

/-- A pointer looked up before still reads what it read. -/
theorem deref (h : Settled k c c₁) {p : Nat} (hp : p ≤ k) : c₁.deref p = c.deref p := by
  simp only [CState.deref, h.slot, h.maps, h.frame.ptr p hp]

/-- The text of a local has the value it had. -/
theorem readLocal (h : Settled k c c₁) (ctx : Ctx) (x : String) (ch : CHost) :
    (ctx.readLocal (safeDup x)).eval ch c₁ = (ctx.localWord c x, c₁) := by
  unfold Ctx.readLocal Ctx.localWord
  split <;> simp only [CExpr.eval, h.caps, h.user]

end Settled

/-- The lines run through, and from then on the text has one value. -/
def Computes (ch : CHost) (k : Nat) (o : Out) (c : CState) : Prop :=
  ∃ c' w, execAll ch o.code c = (.ok (), c') ∧ Settled k c c' ∧
    ∀ c'', Settled o.fresh c' c'' → o.value.eval ch c'' = (w, c'')

namespace Computes

variable {ch : CHost} {k l n : Nat} {o : Out} {c : CState}

theorem weaken (h : Computes ch l o c) (hkl : k ≤ l) : Computes ch k o c := by
  obtain ⟨c', w, hrun, hs, htext⟩ := h
  exact ⟨c', w, hrun, hs.mono hkl, htext⟩

/-- A branch of an `if` leaves its value in `_ifN`. -/
theorem branch (ho : Computes ch n o c) (hn : k < n) :
    ∃ c', execAll ch (branchBlock o n) c = (.ok (), c') ∧ Settled k c c' := by
  obtain ⟨c₁, w, hrun, hs, htext⟩ := ho
  have hval := htext c₁ (.refl _ _)
  cases ht : o.text with
  | none =>
      refine ⟨c₁, ?_, hs.mono hn.le⟩
      rw [branchBlock, ht]
      exact hrun
  | some t =>
      rw [Out.value, ht, Option.getD_some] at hval
      refine ⟨c₁.setVar (.ifTmp n) w, ?_, (hs.mono hn.le).trans (.setIf c₁ hn w) le_rfl⟩
      simp only [branchBlock, ht, execAll_append, hrun, andThen_ok, execAll_cons, CStmt.exec, hval,
        execAll_nil]

/-- A text that is kept changes nothing. -/
theorem keepText (h : Computes ch k o c) :
    ∃ c', execAll ch (o.code ++ Codegen.keepText o) c = (.ok (), c') ∧ Settled k c c' := by
  obtain ⟨c', w, hrun, hs, htext⟩ := h
  refine ⟨c', ?_, hs⟩
  have hval := htext c' (.refl _ _)
  rw [execAll_append, hrun, andThen_ok, Codegen.keepText]
  split
  · cases ht : o.text with
    | none => rfl
    | some t =>
        rw [Out.value, ht, Option.getD_some] at hval
        simp only [execAll_cons, CStmt.exec, hval, andThen_ok, execAll_nil]
  · rfl

end Computes

/-! ### Lowering -/

/-- An expression without effect and its lowering. -/
def QuietSim (ch : CHost) (n : Node) : Prop :=
  ∀ {ctx pos k o} (c), quiet n = true → lower ctx pos n k = .ok o → Computes ch k o c

def QuietSimAll (ch : CHost) (ns : List Node) : Prop :=
  ∀ {ctx k o} (c), quietAll ns = true → lowerAll ctx ns k = .ok o → Computes ch k o c

section

variable {ch : CHost} {l r p : Node} {t e body : List Node}

theorem quietSim_loud {n : Node} (hn : quiet n = false) : QuietSim ch n := by
  intro ctx pos k o c hq
  exact absurd (hn.symm.trans hq) Bool.false_ne_true

theorem quietSim_int (v : Int) : QuietSim ch (.int v) := by
  intro ctx pos k o c _ hlow
  rw [lower] at hlow
  cases hlow
  exact ⟨c, _, rfl, .refl k c, fun _ _ => rfl⟩

theorem quietSim_lvar (x : String) : QuietSim ch (.lvar x) := by
  intro ctx pos k o c _ hlow
  rw [lower] at hlow
  cases hlow
  exact ⟨c, _, rfl, .refl k c, fun _ hs => hs.readLocal ctx x ch⟩

theorem quietSim_ivar (x : String) : QuietSim ch (.ivar x) := by
  intro ctx pos k o c _ hlow
  rw [lower] at hlow
  cases hlow
  refine ⟨_, c.maps (ctx.ivarMap x), rfl, .setPtr c (by omega) _, fun c'' hs => ?_⟩
  rw [Out.value, Option.getD_some, CExpr.eval, hs.deref le_rfl, CState.deref_setPtr]

/-- Two operands, and a text `mk` makes of theirs: both texts have their values after the lines of
both. -/
theorem quietSim_operands (hl : QuietSim ch l) (hr : QuietSim ch r) {ctx : Ctx} {k : Nat}
    {a b : Out} (c : CState) (hq : (quiet l && quiet r) = true)
    (ha : lower ctx .expr l k = .ok a) (hb : lower ctx .expr r a.fresh = .ok b)
    (mk : CExpr → CExpr → CExpr) (f : Word → Word → Word)
    (hmk : ∀ {s t c w w'}, s.eval ch c = (w, c) → t.eval ch c = (w', c) →
      (mk s t).eval ch c = (f w w', c)) :
    Computes ch k ⟨a.code ++ b.code, some (mk a.value b.value), b.fresh⟩ c := by
  obtain ⟨hql, hqr⟩ := (Bool.and_eq_true _ _).mp hq
  obtain ⟨c₁, w₁, hrun₁, hs₁, htext₁⟩ := hl c hql ha
  obtain ⟨c₂, w₂, hrun₂, hs₂, htext₂⟩ := hr c₁ hqr hb
  refine ⟨c₂, f w₁ w₂, ?_, hs₁.trans hs₂ (lower_appended l ha).fresh, fun c'' hs => ?_⟩
  · rw [execAll_append, hrun₁, andThen_ok, hrun₂]
  · exact hmk (htext₁ c'' (hs₂.trans hs (lower_appended r hb).fresh)) (htext₂ c'' hs)

theorem quietSim_binop {op : BinOp} (hl : QuietSim ch l) (hr : QuietSim ch r) :
    QuietSim ch (.binop op l r) := by
  intro ctx pos k o c hq hlow
  obtain ⟨a, b, ha, hb, rfl⟩ := lower_binop hlow
  refine quietSim_operands hl hr c hq ha hb (.binop op) op.c fun hs ht => ?_
  simp only [CExpr.eval, hs, ht]

theorem quietSim_and (hl : QuietSim ch l) (hr : QuietSim ch r) : QuietSim ch (.and l r) := by
  intro ctx pos k o c hq hlow
  obtain ⟨a, b, ha, hb, rfl⟩ := lower_and hlow
  refine quietSim_operands hl hr c hq ha hb .land
    (fun w w' => if w = 0#64 then 0#64 else if w' = 0#64 then 0#64 else 1#64) fun hs ht => ?_
  simp only [CExpr.eval, hs, ht]
  split <;> rfl

theorem quietSim_or (hl : QuietSim ch l) (hr : QuietSim ch r) : QuietSim ch (.or l r) := by
  intro ctx pos k o c hq hlow
  obtain ⟨a, b, ha, hb, rfl⟩ := lower_or hlow
  refine quietSim_operands hl hr c hq ha hb .lor
    (fun w w' => if w = 0#64 then if w' = 0#64 then 0#64 else 1#64 else 1#64) fun hs ht => ?_
  simp only [CExpr.eval, hs, ht]
  split <;> rfl

theorem quietSim_paren (hbody : QuietSimAll ch body) : QuietSim ch (.paren body) := by
  intro ctx pos k o c hq hlow
  rw [quiet] at hq
  rcases lower_paren hlow with ⟨rfl, rfl⟩ | ⟨a, ha, rfl⟩
  · exact ⟨c, _, rfl, .refl k c, fun c'' _ => rfl⟩
  · obtain ⟨c', w, hrun, hs, htext⟩ := hbody c hq ha
    refine ⟨c', w, hrun, hs, fun c'' hs'' => ?_⟩
    rw [Out.value, Option.getD_some, CExpr.eval]
    exact htext c'' hs''

theorem quietSim_if (hp : QuietSim ch p) (ht : QuietSimAll ch t) (he : QuietSimAll ch e) :
    QuietSim ch (.ifNode p t e) := by
  intro ctx pos k o c hq hlow
  obtain ⟨a, tb, eb, ha, htb, heb, rfl⟩ := lower_if hlow
  simp only [quiet, Bool.and_eq_true] at hq
  obtain ⟨⟨hqp, hqt⟩, hqe⟩ := hq
  have hka := (lower_appended p ha).fresh
  have hat := (lowerAll_appended t htb).fresh
  have hte := (lowerAll_appended e heb).fresh
  obtain ⟨c₁, w, hrun₁, hs₁, htext₁⟩ := hp c hqp ha
  -- the predicate's text is read after the declaration of `_ifN`
  have hs₂ : Settled a.fresh c₁ (c₁.setVar (.ifTmp (a.fresh + 1)) 0#64) :=
    .setIf c₁ (Nat.lt_succ_self _) _
  have hdecl : (CStmt.decl (.ifTmp (a.fresh + 1)) (.int 0)).exec ch c₁ =
      (.ok (), c₁.setVar (.ifTmp (a.fresh + 1)) 0#64) := rfl
  obtain ⟨c₃, hrun₃, hs₃⟩ : ∃ c₃,
      (CStmt.cond a.value (branchBlock tb (a.fresh + 1)) (branchBlock eb (a.fresh + 1))).exec ch
        (c₁.setVar (.ifTmp (a.fresh + 1)) 0#64) = (.ok (), c₃) ∧
      Settled a.fresh (c₁.setVar (.ifTmp (a.fresh + 1)) 0#64) c₃ := by
    rw [CStmt.exec, htext₁ _ hs₂]
    dsimp only
    split
    · exact ((he _ hqe heb).weaken hat).branch (Nat.lt_succ_self _)
    · exact (ht _ hqt htb).branch (Nat.lt_succ_self _)
  refine ⟨c₃, c₃.vars (.ifTmp (a.fresh + 1)), ?_, (hs₁.trans hs₂ hka).trans hs₃ hka,
    fun c'' hs'' => ?_⟩
  · rw [execAll_append, hrun₁, andThen_ok, execAll_cons, hdecl, andThen_ok, execAll_cons, hrun₃,
      andThen_ok, execAll_nil]
  · rw [Out.value, Option.getD_some, CExpr.eval, hs''.frame.ifTmp _ (hat.trans hte)]

theorem quietSimAll_nil : QuietSimAll ch [] := by
  intro ctx k o c _ hlow
  cases hlow
  exact ⟨c, _, rfl, .refl k c, fun _ _ => rfl⟩

theorem quietSimAll_single {n : Node} (hn : QuietSim ch n) : QuietSimAll ch [n] := by
  intro ctx k o c hq hlow
  rw [quietAll, Bool.and_eq_true] at hq
  exact hn c hq.1 hlow

theorem quietSimAll_cons {n m : Node} {ns : List Node} (hn : QuietSim ch n)
    (hns : QuietSimAll ch (m :: ns)) : QuietSimAll ch (n :: m :: ns) := by
  intro ctx k o c hq hlow
  obtain ⟨a, b, ha, hb, rfl⟩ := lowerAll_cons hlow
  rw [quietAll, Bool.and_eq_true] at hq
  obtain ⟨c₁, hrun₁, hs₁⟩ := (hn c hq.1 ha).keepText
  obtain ⟨c₂, w, hrun₂, hs₂, htext⟩ := hns c₁ hq.2 hb
  refine ⟨c₂, w, ?_, hs₁.trans hs₂ (lower_appended n ha).fresh, htext⟩
  rw [execAll_append, hrun₁, andThen_ok, hrun₂]

end

mutual

/-- **Lowering an expression without effect.** -/
theorem lower_quiet {ch : CHost} : ∀ n : Node, QuietSim ch n
  | .int v => quietSim_int v
  | .lvar x => quietSim_lvar x
  | .ivar x => quietSim_ivar x
  | .binop _ l r => quietSim_binop (lower_quiet l) (lower_quiet r)
  | .and l r => quietSim_and (lower_quiet l) (lower_quiet r)
  | .or l r => quietSim_or (lower_quiet l) (lower_quiet r)
  | .paren body => quietSim_paren (lowerAll_quiet body)
  | .ifNode p t e => quietSim_if (lower_quiet p) (lowerAll_quiet t) (lowerAll_quiet e)
  | .lwrite .. | .iwrite .. | .iopwrite .. | .ret _ | .emit _ | .call .. | .times .. =>
      quietSim_loud rfl

theorem lowerAll_quiet {ch : CHost} : ∀ ns : List Node, QuietSimAll ch ns
  | [] => quietSimAll_nil
  | [n] => quietSimAll_single (lower_quiet n)
  | n :: m :: ns => quietSimAll_cons (lower_quiet n) (lowerAll_quiet (m :: ns))

end

end SpinelEbpf.Codegen

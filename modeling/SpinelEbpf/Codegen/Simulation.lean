import SpinelEbpf.Codegen.Quiet

/-!
# Codegen — Simulation

The generated code does what the source does, on nodes that pass the check `ok` and in runs that C
reads as Ruby does (`ReadsAlike`): lines and text together, one lemma per constructor, and by
induction over the source `sim` and `simAll`.  What the source does is taken in a host that passes
over the dropped calls and counts rounds as `bpf_loop` does.
-/

namespace SpinelEbpf.Codegen
open Outcome

/-- The C functions do what the callees do, for instance variables that hold numbers. -/
def CalleesAgree (callee : Behaviour) (ch : CHost) (ctx : Ctx) : Prop :=
  ∀ f ws ivars maps, (∀ x, (ivars x).numeric = true) →
    (∀ x, maps (ctx.ivarMap x) = (ivars x).word) →
    (ch f.function ws maps).1 = (callee f ws ivars).1.word ∧
    ∀ x, (ch f.function ws maps).2 (ctx.ivarMap x) = ((callee f ws ivars).2 x).word

/-- What a simulation rests on. -/
structure Setting (h : Host) (ch : CHost) (ctx : Ctx) (sc : Scope) : Prop where
  apart : sc.Apart
  rounds : sc.hosted = true → h.rounds = bpfLoops
  callees : sc.hosted = true → CalleesAgree h.callee ch ctx

/-- A node and its lowering. -/
def Sim (h : Host) (ch : CHost) (n : Node) : Prop :=
  ∀ {ctx sc u k o σ c}, Setting h ch ctx sc → ok h.omits ctx sc u n = true →
    ReadsAlike h sc.slot n σ → lower ctx u.pos n k = .ok o → Rel ctx sc σ c →
    Related (fun v _ σ' c' => After ch ctx sc n.reads (isCall n) u.used u.kept o k c v σ' c')
      (Exits ctx sc) (eval h n σ) (execAll ch o.code c)

/-- Statements and their lowering. -/
def SimAll (h : Host) (ch : CHost) (ns : List Node) : Prop :=
  ∀ {ctx sc used kept k o σ c}, Setting h ch ctx sc → okAll h.omits ctx sc used kept ns = true →
    ReadsAlikeAll h sc.slot ns σ → lowerAll ctx ns k = .ok o → Rel ctx sc σ c →
    Related (fun v _ σ' c' =>
        After ch ctx sc (readsLast ns) (endsInCall ns) used kept o k c v σ' c')
      (Exits ctx sc) (evalAll h ns σ) (execAll ch o.code c)

variable {h : Host} {ch : CHost} {c c₁ : CState} {ctx : Ctx} {σ σ₁ : RState} {sc : Scope} {k : Nat}
  {n l r v : Node} {o b : Out} {x : String} {ns : List Node}

/-! ### Expressions -/

theorem sim_int (v : Int) : Sim h ch (.int v) := by
  intro ctx sc u k o σ c _ _ _ hlow hrel
  rw [lower] at hlow
  cases hlow
  rw [execAll_nil, eval]
  exact Held.mk hrel (.refl k c) ⟨_, fun _ => rfl, fun σ' c' _ _ _ => rfl⟩

theorem sim_lvar (x : String) : Sim h ch (.lvar x) := by
  intro ctx sc u k o σ c _ hok _ hlow hrel
  rw [lower] at hlow
  cases hlow
  rw [execAll_nil, eval]
  refine Held.mk hrel (.refl k c) ⟨_, fun _ => rfl, fun σ' c' _ hrel' hkept => ?_⟩
  rw [← hkept.locals x (by simp [Node.reads, mentions, localRef])]
  exact hrel'.readLocal hok ch

theorem sim_ivar (x : String) : Sim h ch (.ivar x) := by
  intro ctx sc u k o σ c _ hok _ hlow hrel
  rw [lower] at hlow
  cases hlow
  simp only [execAll_cons, execAll_nil, CStmt.exec, andThen_ok, eval]
  refine Held.mk (hrel.setPtr _ _) (.setPtr c (by omega) _)
    ⟨_, fun _ => rfl, fun σ' c' hfr hrel' hkept => ?_⟩
  have hptr : c'.ptrs (k + 2) = ⟨ctx.ivarMap x, c.maps (ctx.ivarMap x)⟩ := by
    simpa [CState.setPtr] using hfr.ptr (k + 2) le_rfl
  rw [Out.value, Option.getD_some, CExpr.eval, CState.deref, hrel'.slot, hptr]
  cases hslot : sc.slot with
  | array =>
      have hx := hkept.ivars hslot x (by simp [Node.reads, mentions, ivarRead])
      simp only [hrel'.ivars x, hx]
  | hash => simp only [hrel.ivars x]

/-- The text of a left operand still holds after the lines of the right one. -/
theorem Stable.later {t : CExpr} {w : Word} {rd : Reads} {l : Nat} {σ₂ : RState} {c₂ : CState}
    (hst : Stable ch ctx sc t w rd k σ₁ c₁) (hfr : Frame k c₁ c₂) (hkl : k ≤ l)
    (hkept : rd.Kept sc.slot σ₁ σ₂) :
    Stable ch ctx sc t w rd l σ₂ c₂ :=
  fun σ' c' hfr' hrel' hkept' =>
    hst σ' c' (hfr.trans hfr' hkl) hrel' (hkept.trans hkept')

theorem isCall_of_ok {drops : Nat → Bool} (hok : ok drops ctx sc .operand n = true) :
    isCall n = false := by
  cases n with
  | call => exact absurd rfl (ok_call.mp hok).1
  | _ => rfl

/-- An operand. -/
theorem Sim.operand (hn : Sim h ch n) (hset : Setting h ch ctx sc)
    (hok : ok h.omits ctx sc .operand n = true) (ha : ReadsAlike h sc.slot n σ)
    (hlow : lower ctx .expr n k = .ok o) (hrel : Rel ctx sc σ c) :
    Related (fun v _ σ' c' => Held ch ctx sc n.reads true o k c v σ' c' ∧ eval h n σ = (.ok v, σ'))
      (Exits ctx sc) (eval h n σ) (execAll ch o.code c) := by
  have hsim := hn (u := .operand) hset hok ha hlow hrel
  exact hsim.run.mono fun v _ σ' c' ⟨hafter, hrun, _⟩ => ⟨hafter.held (isCall_of_ok hok), hrun⟩

/-- What the texts of two operands read, read together. -/
theorem Reads.Kept.operands {slot : Slot} {σ' : RState}
    (hkept : Reads.Kept ⟨mentions localRef l ++ mentions localRef r,
      mentions ivarRead l ++ mentions ivarRead r⟩ slot σ σ') :
    l.reads.Kept slot σ σ' ∧ r.reads.Kept slot σ σ' :=
  ⟨⟨fun x hx => hkept.locals x (List.mem_append_left _ hx),
      fun hs x hx => hkept.ivars hs x (List.mem_append_left _ hx)⟩,
    ⟨fun x hx => hkept.locals x (List.mem_append_right _ hx),
      fun hs x hx => hkept.ivars hs x (List.mem_append_right _ hx)⟩⟩

theorem sim_binop {op : BinOp} (hl : Sim h ch l) (hr : Sim h ch r) :
    Sim h ch (.binop op l r) := by
  intro ctx sc u k o σ c hset hok ⟨hal, hrest⟩ hlow hrel
  obtain ⟨a, b, ha, hb, rfl⟩ := lower_binop hlow
  obtain ⟨hokl, hokr⟩ := ok_binop.mp hok
  rw [execAll_append, eval]
  refine (hl.operand hset hokl hal ha hrel).andThen fun v₁ _ σ₁ c₁ ⟨h₁, hrun₁⟩ => ?_
  obtain ⟨har, hop⟩ := hrest v₁ σ₁ hrun₁
  refine (hr.operand hset hokr har hb h₁.rel).andThen_left fun v₂ _ σ₂ c₂ ⟨h₂, hrun₂⟩ => ?_
  obtain ⟨hsame, hkept⟩ := hop v₂ σ₂ hrun₂
  obtain ⟨w₁, hw₁, hst₁⟩ := h₁.text
  obtain ⟨w₂, hw₂, hst₂⟩ := h₂.text
  obtain ⟨v, hv, hvw⟩ := hsame.ruby
  simp only [applyOp, hv]
  have hab := (lower_appended r hb).fresh
  -- the lines of `r` change nothing that the text of `l` reads
  have hst₁' := hst₁.later h₂.frame hab hkept
  refine Held.mk h₂.rel (h₁.frame.trans h₂.frame (lower_appended l ha).fresh)
    ⟨v.word, fun _ => rfl, fun σ' c' hfr hrel' hkept' => ?_⟩
  obtain ⟨hkl, hkr⟩ := Reads.Kept.operands hkept'
  have he₁ := hst₁' σ' c' hfr hrel' hkl
  have he₂ := hst₂ σ' c' hfr hrel' hkr
  simp only [Out.value, Option.getD_some, CExpr.eval] at he₁ he₂ ⊢
  simp only [he₁, he₂, hw₁ rfl, hw₂ rfl, hvw]

/-- An operand without effect runs through on both sides. -/
theorem Sim.quiet (hn : Sim h ch n) (hset : Setting h ch ctx sc)
    (hok : ok h.omits ctx sc .operand n = true) (ha : ReadsAlike h sc.slot n σ)
    (hq : quiet n = true) (hlow : lower ctx .expr n k = .ok o) (hrel : Rel ctx sc σ c) :
    ∃ v c', eval h n σ = (.ok v, σ) ∧ execAll ch o.code c = (.ok (), c') ∧
      Held ch ctx sc n.reads true o k c v σ c' := by
  have hsim := hn.operand hset hok ha hlow hrel
  have hstill := quiet_still (h := h) n hq σ
  rcases heval : eval h n σ with ⟨v | e, σ'⟩ <;> rcases hexec : execAll ch o.code c with ⟨u | e', c'⟩
  all_goals rw [heval, hexec] at hsim
  · rw [heval] at hstill
    obtain rfl : σ' = σ := hstill.1
    exact ⟨v, c', rfl, rfl, hsim.1⟩
  · exact hsim.elim
  · exact hsim.elim
  · cases e with
    | raise => exact hsim.2.2.elim
    | ret v => exact absurd (by rw [heval]) (hstill.2 v)

/-- Temporaries are no part of the relation. -/
theorem Rel.settled {c' : CState}
    (hrel : Rel ctx sc σ c) (hs : Settled k c c') : Rel ctx sc σ c' where
  own x hx := (hs.user _).trans (hrel.own x hx)
  outer x hx := (congrFun hs.caps _).trans (hrel.outer x hx)
  ivars x := (congrFun hs.maps _).trans (hrel.ivars x)
  trace := hs.trace.trans hrel.trace
  slot := hs.slot.trans hrel.slot
  hidden p hp := (congrFun hs.caps _).trans (hrel.hidden p hp)

/-- The lines of a right operand that Ruby does not come to, and which has no effect: the text of
the left one, whose value decides, holds after them. -/
theorem skipped_right (mk : CExpr → CExpr → CExpr) {a : Out} {v : Value}
    (h₁ : Held ch ctx sc l.reads true a k c v σ₁ c₁) (hk : k ≤ a.fresh) (hq : quiet r = true)
    (hb : lower ctx .expr r a.fresh = .ok b)
    (hmk : ∀ c t₁ t₂, t₁.eval ch c = (v.word, c) → (mk t₁ t₂).eval ch c = (v.word, c)) :
    ∃ c₂, execAll ch b.code c₁ = (.ok (), c₂) ∧
      Held ch ctx sc ⟨mentions localRef l ++ mentions localRef r,
          mentions ivarRead l ++ mentions ivarRead r⟩ true
        ⟨a.code ++ b.code, some (mk a.value b.value), b.fresh⟩ k c v σ₁ c₂ := by
  obtain ⟨c₂, _, hrun, hs, _⟩ := (lower_quiet r : QuietSim ch r) c₁ hq hb
  obtain ⟨w, hw, hst⟩ := h₁.text
  refine ⟨c₂, hrun, h₁.rel.settled hs, h₁.frame.trans hs.frame hk,
    v.word, fun _ => rfl, fun σ' c' hfr hrel' hkept => ?_⟩
  have he := hst.later hs.frame (lower_appended r hb).fresh (.refl _ _ _) σ' c' hfr hrel'
    (Reads.Kept.operands hkept).1
  rw [hw rfl] at he
  exact hmk c' a.value b.value he

/-- The lines of both operands of `&&` or `||`, where Ruby comes to the right one. -/
theorem reached_right (mk : CExpr → CExpr → CExpr) (hr : Sim h ch r)
    {a : Out} {v : Value}
    (hset : Setting h ch ctx sc) (hokr : ok h.omits ctx sc .operand r = true)
    (h₁ : Held ch ctx sc l.reads true a k c v σ₁ c₁) (hk : k ≤ a.fresh)
    (hb : lower ctx .expr r a.fresh = .ok b)
    (har : ReadsAlike h sc.slot r σ₁ ∧ ∀ b σ₂, eval h r σ₁ = (.ok b, σ₂) →
      b.numeric = false ∧ l.reads.Kept sc.slot σ₁ σ₂)
    (hmk : ∀ c t₁ t₂ (u : Value), u.numeric = false → t₁.eval ch c = (v.word, c) →
      t₂.eval ch c = (u.word, c) → (mk t₁ t₂).eval ch c = (u.word, c)) :
    Related (fun u _ σ' c' => Held ch ctx sc ⟨mentions localRef l ++ mentions localRef r,
          mentions ivarRead l ++ mentions ivarRead r⟩ true
        ⟨a.code ++ b.code, some (mk a.value b.value), b.fresh⟩ k c u σ' c')
      (Exits ctx sc) (eval h r σ₁) (execAll ch b.code c₁) := by
  refine (hr.operand hset hokr har.1 hb h₁.rel).mono fun u _ σ₂ c₂ ⟨h₂, hrun₂⟩ => ?_
  obtain ⟨hu, hkept⟩ := har.2 u σ₂ hrun₂
  obtain ⟨w₁, hw₁, hst₁⟩ := h₁.text
  obtain ⟨w₂, hw₂, hst₂⟩ := h₂.text
  have hst₁' := hst₁.later h₂.frame (lower_appended r hb).fresh hkept
  refine ⟨h₂.rel, h₁.frame.trans h₂.frame hk, u.word, fun _ => rfl, fun σ' c' hfr hrel' hk' => ?_⟩
  obtain ⟨hkl, hkr⟩ := Reads.Kept.operands hk'
  have he₁ := hst₁' σ' c' hfr hrel' hkl
  have he₂ := hst₂ σ' c' hfr hrel' hkr
  rw [hw₁ rfl] at he₁
  rw [hw₂ rfl] at he₂
  exact hmk c' a.value b.value u hu he₁ he₂

theorem sim_and (hl : Sim h ch l) (hr : Sim h ch r) : Sim h ch (.and l r) := by
  intro ctx sc u k o σ c hset hok ⟨hal, hrest⟩ hlow hrel
  obtain ⟨a, b, ha, hb, rfl⟩ := lower_and hlow
  obtain ⟨hokl, hokr⟩ := ok_and.mp hok
  have hka := (lower_appended l ha).fresh
  rw [execAll_append, eval]
  refine (hl.operand hset hokl hal ha hrel).andThen fun v _ σ₁ c₁ ⟨h₁, hrun₁⟩ => ?_
  obtain ⟨hv, hskip, hreach⟩ := hrest v σ₁ hrun₁
  cases ht : v.truthy with
  | false =>
      have hz := (Value.word_eq_zero hv).mpr ht
      obtain ⟨c₂, hrun, hheld⟩ := skipped_right .land h₁ hka (hskip ht) hb fun c t₁ t₂ he => by
        rw [CExpr.eval, he, if_pos hz, hz]
      rw [hrun]
      exact hheld.any_use
  | true =>
      rw [if_pos rfl]
      refine (reached_right .land hr hset hokr h₁ hka hb (hreach ht)
        fun c t₁ t₂ u hu he₁ he₂ => ?_).mono fun _ _ _ _ hheld => hheld.any_use
      simp only [CExpr.eval, he₁, if_neg (Value.word_ne_zero hv ht), he₂, ← Value.word_bool hu]

theorem sim_or (hl : Sim h ch l) (hr : Sim h ch r) : Sim h ch (.or l r) := by
  intro ctx sc u k o σ c hset hok ⟨hal, hrest⟩ hlow hrel
  obtain ⟨a, b, ha, hb, rfl⟩ := lower_or hlow
  obtain ⟨hokl, hokr⟩ := ok_or.mp hok
  have hka := (lower_appended l ha).fresh
  rw [execAll_append, eval]
  refine (hl.operand hset hokl hal ha hrel).andThen fun v _ σ₁ c₁ ⟨h₁, hrun₁⟩ => ?_
  obtain ⟨hv, hskip, hreach⟩ := hrest v σ₁ hrun₁
  cases ht : v.truthy with
  | true =>
      have hne := Value.word_ne_zero hv ht
      obtain ⟨c₂, hrun, hheld⟩ := skipped_right .lor h₁ hka (hskip ht) hb fun c t₁ t₂ he => by
        rw [CExpr.eval, he, if_neg hne, Value.word_bool hv, if_neg hne]
      rw [hrun]
      exact hheld.any_use
  | false =>
      have hz := (Value.word_eq_zero hv).mpr ht
      refine (reached_right .lor hr hset hokr h₁ hka hb (hreach ht)
        fun c t₁ t₂ u hu he₁ he₂ => ?_).mono fun _ _ _ _ hheld => hheld.any_use
      simp only [CExpr.eval, he₁, if_pos hz, he₂, ← Value.word_bool hu]

theorem sim_paren {body : List Node} (hbody : SimAll h ch body) : Sim h ch (.paren body) := by
  intro ctx sc u k o σ c hset hok hal hlow hrel
  rw [ok_paren] at hok
  rcases lower_paren hlow with ⟨rfl, rfl⟩ | ⟨a, ha, rfl⟩
  · rw [eval, evalAll, execAll_nil]
    exact Held.mk hrel (.refl k c) ⟨0#64, fun _ => rfl, fun _ _ _ _ _ => rfl⟩
  · rw [eval]
    refine (hbody hset hok.2 hal ha hrel).mono fun v _ σ' c' hafter => ?_
    have hheld := hafter.held hok.1
    obtain ⟨w, hw, hst⟩ := hheld.text
    refine Held.mk hheld.rel hheld.frame ⟨w, fun _ => hw rfl, ?_⟩
    intro σ'' c'' hfr hrel' hkept
    exact hst σ'' c'' hfr hrel' hkept

/-! ### Assignments -/

/-- The whole of a right-hand side. -/
theorem Sim.rhs (hn : Sim h ch n) (hset : Setting h ch ctx sc)
    (hok : ok h.omits ctx sc .rhs n = true) (ha : ReadsAlike h sc.slot n σ)
    (hlow : lower ctx .expr n k = .ok o) (hrel : Rel ctx sc σ c) :
    Related (fun v _ σ' c' => Consumed ch ctx sc true o k c v σ' c') (Exits ctx sc)
      (eval h n σ) (execAll ch o.code c) :=
  (hn (u := .rhs) hset hok ha hlow hrel).mono fun _ _ _ _ hafter => hafter.consumed fun _ => rfl

theorem sim_lwrite (hv : Sim h ch v) : Sim h ch (.lwrite x v) := by
  intro ctx sc u k o σ c hset hok hal hlow hrel
  obtain ⟨a, ha, rfl⟩ := lower_lwrite hlow
  obtain ⟨_, hsees, hokv⟩ := ok_lwrite.mp hok
  rw [execAll_append, eval]
  refine (hv.rhs hset hokv hal ha hrel).andThen fun w _ σ₁ c₁ hc => ?_
  obtain ⟨w', c₂, heval, hw', hrel₂, hfr₂⟩ := hc.text
  rw [hw' rfl] at heval
  obtain ⟨c₃, hexec, hrel₃, hfr₃⟩ := hrel₂.writeLocal (hset.apart.add hsees) heval
  rw [execAll_cons, hexec, andThen_ok, execAll_nil]
  refine Held.mk hrel₃.of_add (hfr₂.trans (hfr₃ k) le_rfl) ⟨w.word, fun _ => rfl, ?_⟩
  intro σ' c' _ hrel' hkept
  have hx : (σ'.locals x).word = w.word := by
    simpa using hkept.locals x (by simp [Node.reads, mentions, localRef])
  rw [← hx]
  exact hrel'.readLocal hsees ch

/-- The lines that put a value into the map of an instance variable, by way of `_vN`. -/
theorem update_run {c₀ : CState} (hrel : Rel ctx sc σ c) (x : String) {v : Value} {t : CExpr}
    {n j : Nat} (hn : k < n) (ht : t.eval ch c₀ = (v.word, c)) :
    ∃ c', execAll ch [.decl (.val n) t, .update (ctx.ivarMap x) j n] c₀ = (.ok (), c') ∧
      Rel ctx sc (σ.setIvar x v) c' ∧ Frame k c c' ∧ c'.vars (.val n) = v.word := by
  have hset := (hrel.setTmp (x := .val n) (by simp) v.word).setIvar x v
  simp only [execAll_cons, execAll_nil, CStmt.exec, ht, andThen_ok]
  refine ⟨_, rfl, ?_, ?_, ?_⟩
  · simpa using hset
  · exact (Frame.setVal c hn v.word).trans (.of_eq (by simp) (by simp) k) le_rfl
  · simp

theorem sim_iwrite (hv : Sim h ch v) : Sim h ch (.iwrite x v) := by
  intro ctx sc u k o σ c hset hok hal hlow hrel
  obtain ⟨a, ha, rfl⟩ := lower_iwrite hlow
  obtain ⟨_, hokv⟩ := ok_iwrite.mp hok
  rw [execAll_append, eval]
  refine (hv.rhs hset hokv hal ha hrel).andThen fun w _ σ₁ c₁ hc => ?_
  obtain ⟨w', c₂, heval, hw', hrel₂, hfr₂⟩ := hc.text
  rw [hw' rfl] at heval
  have hka := (lower_appended v ha).fresh
  obtain ⟨c₃, hexec, hrel₃, hfr₃, hval⟩ :=
    update_run hrel₂ x (k := k) (j := a.fresh + 1) (n := a.fresh + 2) (by omega) heval
  rw [execAll_cons, CStmt.exec, andThen_ok, hexec]
  refine Held.mk hrel₃ (hfr₂.trans hfr₃ le_rfl) ⟨_, fun _ => rfl, ?_⟩
  intro σ' c' hfr _ _
  simp [Out.value, CExpr.eval, hfr.val (a.fresh + 2) le_rfl, hval]

theorem sim_iopwrite {op : BinOp} (hv : Sim h ch v) :
    Sim h ch (.iopwrite x op v) := by
  intro ctx sc u k o σ c hset hok ⟨hal, hrest⟩ hlow hrel
  obtain ⟨a, ha, rfl⟩ := lower_iopwrite hlow
  obtain ⟨_, hokv⟩ := ok_iopwrite.mp hok
  rw [execAll_append, eval]
  refine (hv.operand hset hokv hal ha hrel).andThen fun w _ σ₁ c₁ ⟨h₁, hrun₁⟩ => ?_
  obtain ⟨w', hw', hst⟩ := h₁.text
  -- the right-hand side left the variable alone
  obtain ⟨hop, hsame⟩ := hrest w σ₁ hrun₁
  obtain ⟨z, hz, hzw⟩ := hop.ruby
  simp only [applyOp, hz]
  have hka := (lower_appended v ha).fresh
  set c₂ : CState := c₁.setPtr (a.fresh + 2) (ctx.ivarMap x) with hc₂
  have hrel₂ : Rel ctx sc σ₁ c₂ := h₁.rel.setPtr _ _
  have hfr₂ : Frame a.fresh c₁ c₂ := .setPtr c₁ (by omega) _
  have htext := hst.eval hfr₂ hrel₂
  have heval : (CExpr.binop op (.load (a.fresh + 2)) (.paren a.value)).eval ch c₂ = (z.word, c₂) := by
    have hload : c₂.deref (a.fresh + 2) = (σ.ivars x).word := by
      rw [hc₂, CState.deref_setPtr, h₁.rel.ivars x, hsame]
    simp only [CExpr.eval, htext, hload, hzw, hw' rfl]
  obtain ⟨c₃, hexec, hrel₃, hfr₃, hval⟩ :=
    update_run hrel₂ x (k := k) (j := a.fresh + 1) (n := a.fresh + 3) (by omega) heval
  rw [execAll_cons, CStmt.exec, andThen_ok, execAll_cons, CStmt.exec, andThen_ok, hexec]
  refine Held.mk hrel₃ ((h₁.frame.trans hfr₂ hka).trans hfr₃ le_rfl) ⟨_, fun _ => rfl, ?_⟩
  intro σ' c' hfr _ _
  simp [Out.value, CExpr.eval, hfr.val (a.fresh + 3) le_rfl, hval]

/-! ### Returns, emitted values and branches -/

theorem sim_ret {args : List Node} (hargs : ∀ v ∈ args, Sim h ch v) : Sim h ch (.ret args) := by
  intro ctx sc u k o σ c hset hok hal hlow hrel
  rcases lower_ret hlow with ⟨rfl, rfl⟩ | ⟨v, a, rfl, hvoid, ha, rfl⟩
  · rw [ok_ret_nil] at hok
    rw [eval, evalAll, andThen_ok, execAll_cons]
    cases hvoid : ctx.void
    · exact ⟨hok.2, hrel, by simp [hvoid, CExpr.eval, Value.word]⟩
    · exact ⟨hok.2, hrel, by simp [hvoid]⟩
  · obtain ⟨_, hcb, hokv⟩ := ok_ret.mp hok
    rw [eval, evalAll, execAll_append]
    have hv : Sim h ch v := hargs v (by simp)
    refine (hv.rhs hset hokv hal.1 ha hrel).andThen fun w _ σ₁ c₁ hc => ?_
    obtain ⟨w', c₂, heval, hw', hrel₂, _⟩ := hc.text
    rw [execAll_cons, CStmt.exec, heval, hw' rfl]
    exact ⟨hcb, hrel₂, by simp [hvoid]⟩

theorem sim_emit (hv : Sim h ch v) : Sim h ch (.emit v) := by
  intro ctx sc u k o σ c hset hok hal hlow hrel
  obtain ⟨a, ha, rfl⟩ := lower_emit hlow
  rw [execAll_append, eval]
  refine (hv.operand hset (ok_emit.mp hok).2 hal ha hrel).andThen fun w _ σ₁ c₁ ⟨h₁, _⟩ => ?_
  obtain ⟨w', hw', hst⟩ := h₁.text
  rw [execAll_cons, CStmt.exec, hst.eval (.refl _ _) h₁.rel, andThen_ok, execAll_nil, hw' rfl]
  exact Held.mk (h₁.rel.log (.emit w.word)) (h₁.frame.trans (.of_eq (by simp) (by simp) k) le_rfl)
    ⟨0#64, fun _ => rfl, fun _ _ _ _ _ => rfl⟩

/-- The lines of a branch leave its value in `_ifN`. -/
theorem branch_run (hns : SimAll h ch ns) {used : Bool} {j n : Nat} (hset : Setting h ch ctx sc)
    (hok : okAll h.omits ctx sc used true ns = true) (hal : ReadsAlikeAll h sc.slot ns σ)
    (hlow : lowerAll ctx ns k = .ok o) (hrel : Rel ctx sc σ c) (hj : j < n) (hn : n ≤ k)
    (hzero : c.vars (.ifTmp n) = 0#64) :
    Related (fun v _ σ' c' => Rel ctx sc σ' c' ∧ Frame j c c' ∧
        (used = true → c'.vars (.ifTmp n) = v.word))
      (Exits ctx sc) (evalAll h ns σ) (execAll ch (branchBlock o n) c) := by
  have hrun := (hns hset hok hal hlow hrel).mono fun v _ σ' c' hafter => hafter.consumed fun _ => rfl
  unfold branchBlock
  cases htext : o.text with
  | none =>
      -- no value: `_ifN` is still zero, as the value is
      refine hrun.mono fun v _ σ' c' hc => ?_
      obtain ⟨w, c'', heval, hw, hrel', hfr⟩ := hc.text
      rw [Out.value, htext, Option.getD_none, CExpr.eval] at heval
      obtain ⟨rfl, rfl⟩ := Prod.mk.inj heval
      refine ⟨hrel', hfr.mono (by omega), fun hu => ?_⟩
      rw [hfr.ifTmp n hn, hzero, ← hw hu]
      rfl
  | some t =>
      rw [execAll_append, ← andThen_value (evalAll h ns σ)]
      refine hrun.andThen fun v _ σ' c' hc => ?_
      obtain ⟨w, c'', heval, hw, hrel', hfr⟩ := hc.text
      rw [Out.value, htext, Option.getD_some] at heval
      rw [execAll_cons, CStmt.exec, heval, andThen_ok, execAll_nil]
      refine ⟨hrel'.setTmp (x := .ifTmp n) (by simp) w,
        (hfr.mono (by omega)).trans (.setIf c'' hj w) le_rfl, fun hu => ?_⟩
      simp [hw hu]

theorem sim_if {p : Node} {t e : List Node} (hp : Sim h ch p) (ht : SimAll h ch t)
    (he : SimAll h ch e) : Sim h ch (.ifNode p t e) := by
  intro ctx sc u k o σ c hset hok ⟨hal, hrest⟩ hlow hrel
  obtain ⟨a, tb, eb, ha, htb, heb, rfl⟩ := lower_if hlow
  obtain ⟨hokp, hokt, hoke⟩ := ok_if.mp hok
  rw [execAll_append, eval]
  refine (hp.operand hset hokp hal ha hrel).andThen fun v _ σ₁ c₁ ⟨h₁, hrun₁⟩ => ?_
  obtain ⟨hbool, hthen, helse⟩ := hrest v σ₁ hrun₁
  obtain ⟨w, hw, hst⟩ := h₁.text
  have hka := (lower_appended p ha).fresh
  have htf := (lowerAll_appended t htb).fresh
  have hef := (lowerAll_appended e heb).fresh
  set c₂ := c₁.setVar (.ifTmp (a.fresh + 1)) 0#64 with hc₂
  have hrel₂ : Rel ctx sc σ₁ c₂ := h₁.rel.setTmp (x := .ifTmp (a.fresh + 1)) (by simp) _
  have hfr₂ : Frame a.fresh c₁ c₂ := .setIf c₁ (by omega) _
  have hzero : c₂.vars (.ifTmp (a.fresh + 1)) = 0#64 := by simp [hc₂]
  have htext := hst.eval hfr₂ hrel₂
  rw [hw rfl] at htext
  have hdecl : (CStmt.decl (.ifTmp (a.fresh + 1)) (.int 0)).exec ch c₁ = (.ok (), c₂) := rfl
  rw [execAll_cons, hdecl, andThen_ok, execAll_cons, CStmt.exec, htext]
  simp only [execAll_nil, andThen_unit]
  refine Related.mono (Q := fun v _ σ' c' => Rel ctx sc σ' c' ∧ Frame a.fresh c₂ c' ∧
    (u.used = true → c'.vars (.ifTmp (a.fresh + 1)) = v.word)) ?_
    fun v _ σ' c' ⟨hrel', hfr, hval⟩ => ?_
  · cases hv : v.truthy with
    | true =>
        rw [if_pos rfl, if_neg (Value.word_ne_zero hbool hv)]
        exact branch_run ht hset hokt (hthen hv) htb hrel₂ (by omega) le_rfl hzero
    | false =>
        rw [if_neg Bool.false_ne_true, if_pos ((Value.word_eq_zero hbool).mpr hv)]
        exact branch_run he hset hoke (helse hv) heb hrel₂ (by omega) htf hzero
  · refine Held.mk hrel' ((h₁.frame.trans hfr₂ hka).trans hfr hka)
      ⟨_, hval, fun σ'' c'' hfr' _ _ => ?_⟩
    simp [Out.value, CExpr.eval, hfr'.ifTmp (a.fresh + 1) (htf.trans hef)]

/-! ### Calls -/

/-- Arguments and their lowering: the lines have no effect, and the texts hold the values. -/
def SimArgs (h : Host) (ch : CHost) (ns : List Node) : Prop :=
  ∀ {ctx sc k as σ c}, Setting h ch ctx sc → okArgs h.omits ctx sc ns = true →
    ReadsAlikeAll h sc.slot ns σ → lowerArgs ctx ns k = .ok as → Rel ctx sc σ c →
    ∃ ws c', evalArgs h ns σ = (.ok ws, σ) ∧ execAll ch as.1 c = (.ok (), c') ∧
      Rel ctx sc σ c' ∧ Frame k c c' ∧
      ∀ c'', Frame as.2.2 c' c'' → Rel ctx sc σ c'' → evalCArgs ch as.2.1 c'' = (ws, c'')

theorem simArgs_nil : SimArgs h ch [] := by
  intro ctx sc k as σ c _ _ _ hlow hrel
  rw [lowerArgs] at hlow
  cases hlow
  refine ⟨[], c, by rw [evalArgs], execAll_nil ch c, hrel, .refl k c, fun c'' _ _ => ?_⟩
  rw [evalCArgs]

theorem simArgs_cons (hn : Sim h ch n) (hns : SimArgs h ch ns) :
    SimArgs h ch (n :: ns) := by
  intro ctx sc k as σ c hset hok ⟨hal, hrest⟩ hlow hrel
  obtain ⟨a, bs, ha, hbs, rfl⟩ := lowerArgs_cons hlow
  obtain ⟨hq, hokn, hokns⟩ := okArgs_cons.mp hok
  obtain ⟨v, c₁, heval₁, hexec₁, h₁⟩ := hn.quiet hset hokn hal hq ha hrel
  obtain ⟨ws, c₂, heval₂, hexec₂, hrel₂, hfr₂, htexts⟩ := hns hset hokns (hrest v σ heval₁) hbs
    h₁.rel
  obtain ⟨w, hw, hst⟩ := h₁.text
  have hka := (lower_appended n ha).fresh
  have hab := (lowerArgs_appended ns hbs).fresh
  refine ⟨v.word :: ws, c₂, ?_, ?_, hrel₂, h₁.frame.trans hfr₂ hka, fun c'' hfr hrel' => ?_⟩
  · rw [evalArgs, heval₁, andThen_ok, heval₂, andThen_ok]
  · rw [execAll_append, hexec₁, andThen_ok, hexec₂]
  · have he := hst.eval (hfr₂.trans hfr hab) hrel'
    rw [evalCArgs, he, htexts c'' hfr hrel', hw rfl]

/-- A call, where its text stands. -/
theorem call_run (hcallees : CalleesAgree h.callee ch ctx) (hnum : ∀ x, (σ.ivars x).numeric = true)
    (hrel : Rel ctx sc σ c) (site : Nat) (f : Callee) {ts : List CExpr} {ws : List Word}
    (hts : evalCArgs ch ts c = (ws, c)) :
    ∃ c', (CExpr.call site f.function ts).eval ch c = ((h.callee f ws σ.ivars).1.word, c') ∧
      Rel ctx sc ({ σ with ivars := (h.callee f ws σ.ivars).2 }.log (.call site ws)) c' ∧
      ∀ k, Frame k c c' := by
  obtain ⟨hword, hmaps⟩ := hcallees f ws σ.ivars c.maps hnum hrel.ivars
  simp only [CExpr.eval, hts, hword]
  refine ⟨_, rfl, ?_, .of_eq (by simp) (by simp)⟩
  have hrel' : Rel ctx sc { σ with ivars := (h.callee f ws σ.ivars).2 }
      { c with maps := (ch f.function ws c.maps).2 } :=
    ⟨hrel.own, hrel.outer, hmaps, hrel.trace, hrel.slot, hrel.hidden⟩
  exact hrel'.log (.call site ws)

theorem sim_call {site : Nat} {f : Callee} {args : List Node} (hargs : SimArgs h ch args) :
    Sim h ch (.call site f args) := by
  intro ctx sc u k o σ c hset hok ⟨hal, hnum⟩ hlow hrel
  obtain ⟨as, has, rfl⟩ := lower_call hlow
  obtain ⟨_, hhost, homits, hoka⟩ := ok_call.mp hok
  obtain ⟨ws, c₁, heval, hexec, hrel₁, hfr₁, htexts⟩ := hargs hset hoka hal has hrel
  obtain ⟨c₂, hcall, hrel₂, hfr₂⟩ :=
    call_run (hset.callees hhost) hnum hrel₁ site f (htexts c₁ (.refl _ _) hrel₁)
  rw [eval, heval, andThen_ok, hexec]
  cases hkept : u.kept with
  | false =>
      rw [homits, hkept]
      exact ⟨hrel₁, hfr₁⟩
  | true =>
      rw [homits, hkept]
      exact Consumed.mk hfr₁ ⟨_, c₂, hcall, fun _ => rfl, hrel₂, hfr₁.trans (hfr₂ k) le_rfl⟩

/-! ### Statements -/

theorem simAll_nil : SimAll h ch [] := by
  intro ctx sc used kept k o σ c _ _ _ hlow hrel
  rw [lowerAll] at hlow
  cases hlow
  rw [evalAll, execAll_nil]
  exact Held.mk hrel (.refl k c) ⟨0#64, fun _ => rfl, fun _ _ _ _ _ => rfl⟩

theorem simAll_single (hn : Sim h ch n) : SimAll h ch [n] := by
  intro ctx sc used kept k o σ c hset hok hal hlow hrel
  exact hn (u := .stmt used kept) hset hok hal.1 hlow hrel

/-- A statement that is not the last, with what becomes of its text. -/
theorem statement_run (hn : Sim h ch n) (hset : Setting h ch ctx sc)
    (hok : ok h.omits ctx sc (.stmt false !appends n) n = true) (hal : ReadsAlike h sc.slot n σ)
    (hlow : lower ctx .stmt n k = .ok o) (hrel : Rel ctx sc σ c) :
    Related (fun _ _ σ' c' => Rel ctx sc σ' c' ∧ Frame k c c') (Exits ctx sc) (eval h n σ)
      (execAll ch (o.code ++ keepText o) c) := by
  have hrun := hn (u := .stmt false !appends n) hset hok hal hlow hrel
  have happ := (lower_appended n hlow).code
  rw [execAll_append, ← andThen_value (eval h n σ)]
  refine hrun.andThen fun v _ σ' c' hafter => ?_
  by_cases hcode : o.code = []
  · -- nothing was appended: the text is kept
    have hkept : (Use.stmt false !appends n).kept = true := by simp [Use.kept, happ.mp hcode]
    obtain ⟨w, c'', heval, _, hrel', hfr⟩ := (hafter.consumed fun _ => hkept).text
    cases htext : o.text with
    | none => exact absurd hcode (lower_text hlow htext)
    | some t =>
        rw [Out.value, htext, Option.getD_some] at heval
        simp only [keepText, hcode, htext, List.isEmpty_nil, if_true, execAll_cons, CStmt.exec,
          heval, andThen_ok, execAll_nil]
        exact ⟨hrel', hfr⟩
  · have hkept : (Use.stmt false !appends n).kept = false := by
      cases happn : appends n with
      | true => rfl
      | false => exact absurd (happ.mpr happn) hcode
    have hempty : keepText o = [] := by simp [keepText, hcode]
    rw [hempty, execAll_nil]
    exact hafter.settled fun _ => hkept

theorem simAll_cons {m : Node} (hn : Sim h ch n) (hns : SimAll h ch (m :: ns)) :
    SimAll h ch (n :: m :: ns) := by
  intro ctx sc used kept k o σ c hset hok ⟨hal, hrest⟩ hlow hrel
  obtain ⟨a, b, ha, hb, rfl⟩ := lowerAll_cons hlow
  obtain ⟨hokn, hokns⟩ := okAll_cons.mp hok
  rw [execAll_append]
  refine (statement_run hn hset hokn hal ha hrel).run.andThen
    fun v _ σ₁ c₁ ⟨⟨hrel₁, hfr₁⟩, hrun₁, _⟩ => ?_
  exact (hns hset hokns (hrest v σ₁ hrun₁) hb hrel₁).mono fun v _ σ' c' hafter =>
    hafter.prepend hfr₁ (lower_appended n ha).fresh rfl rfl

/-! ### Blocks -/

/-- Lines that do what a block does, in a scope. -/
def Simulates (h : Host) (ch : CHost) (ctx : Ctx) (sc : Scope) (ns : List Node) (k : Nat)
    (code : List CStmt) : Prop :=
  ∀ σ c, Rel ctx sc σ c → ReadsAlikeAll h sc.slot ns σ →
    Related (fun _ _ σ' c' => Rel ctx sc σ' c' ∧ Frame k c c') (Exits ctx sc) (evalAll h ns σ)
      (execAll ch code c)

theorem SimAll.simulates (hns : SimAll h ch ns) (hset : Setting h ch ctx sc)
    (hok : okAll h.omits ctx sc false false ns = true) (hlow : lowerAll ctx ns k = .ok o) :
    Simulates h ch ctx sc ns k o.code := fun _ _ hrel hal =>
  (hns hset hok hal hlow hrel).mono fun _ _ _ _ hafter => hafter.settled fun _ => rfl

/-- A block with parameter `x` and `locals` of its own can be entered: the parameter may hide a
local of the function, and is no other's name in C. -/
structure Scope.Enters (sc : Scope) (x : String) (locals : List String) : Prop where
  param : ∀ y ∈ sc.own ++ sc.outer, safeDup y = safeDup x → y = x
  visible : x ∉ sc.outer
  locals : ∀ y ∈ sc.own ++ sc.outer, y ∉ locals

theorem Scope.fresh_iff :
    sc.fresh x = true ↔ ∀ y ∈ sc.own ++ sc.outer, safeDup y ≠ safeDup x := by
  simp only [Scope.fresh, decide_eq_true_eq, List.mem_map, not_exists, not_and]

theorem Scope.Enters.of_fresh (hx : sc.fresh x = true) :
    sc.Enters x [] := by
  rw [Scope.fresh_iff] at hx
  exact ⟨fun y hy he => absurd he (hx y hy), fun hout => hx x (List.mem_append_right _ hout) rfl,
    fun _ _ => List.not_mem_nil⟩

section

variable {locals names : List String} {body : List Node} {σ' : RState} {c₀ c' : CState}
  {code : List CStmt} {caps : Captures} {hidden : List (String × Word)}

theorem mem_unhidden {y : String} : y ∈ sc.own.filter (· ≠ x) ↔ y ∈ sc.own ∧ y ≠ x := by simp

/-- The parameter before names in reach is no other's name in C either. -/
theorem Scope.Enters.inj (he : sc.Enters x locals) (hsc : sc.Apart)
    (hin : ∀ y ∈ names, y ∈ sc.own ++ sc.outer) :
    ∀ y ∈ x :: names, ∀ z ∈ x :: names, safeDup y = safeDup z → y = z := by
  intro y hy z hz hyz
  rcases List.mem_cons.mp hy with rfl | hy' <;> rcases List.mem_cons.mp hz with rfl | hz'
  · rfl
  · exact (he.param z (hin z hz') hyz.symm).symm
  · exact he.param y (hin y hy') hyz
  · exact hsc.inj y (hin y hy') z (hin z hz') hyz

theorem Scope.Apart.push (hsc : sc.Apart) (he : sc.Enters x locals) : (sc.push x).Apart := by
  have hin : ∀ y ∈ sc.own.filter (· ≠ x) ++ sc.outer, y ∈ sc.own ++ sc.outer := fun y hy =>
    List.mem_append.mpr ((List.mem_append.mp hy).imp_left fun h => (mem_unhidden.mp h).1)
  refine ⟨he.inj hsc hin, fun y hy hout => ?_, hsc.hidden⟩
  rcases List.mem_cons.mp hy with rfl | hy
  · exact he.visible hout
  · exact hsc.disj y (mem_unhidden.mp hy).1 hout

theorem Scope.Apart.enter (hsc : sc.Apart) (he : sc.Enters x locals) : (sc.enter x []).Apart := by
  have hin : ∀ y ∈ sc.own.filter (· ≠ x), y ∈ sc.own ++ sc.outer := fun y hy =>
    List.mem_append_left _ (mem_unhidden.mp hy).1
  refine ⟨he.inj hsc hin, fun y hy hout => ?_, nofun⟩
  obtain rfl := List.mem_singleton.mp hy
  exact (mem_unhidden.mp hout).2 rfl

/-! ### Loops in the function -/

/-- A round starts. -/
theorem Rel.enterIter (hrel : Rel ctx sc σ c) (he : sc.Enters x locals) (i : Nat) :
    Rel ctx (sc.push x) (σ.enterBlock x i locals)
      (c.setVar (.user (safeDup x)) (.ofNat 64 i)) := by
  refine ⟨fun y hy => ?_, fun y hy => ?_, hrel.ivars, hrel.trace, hrel.slot, hrel.hidden⟩
  · rcases List.mem_cons.mp hy with rfl | hy
    · simp [RState.enterBlock, Value.word]
    · obtain ⟨hy, hne⟩ := mem_unhidden.mp hy
      have hmem := List.mem_append_left sc.outer hy
      have hC : safeDup y ≠ safeDup x := fun h => hne (he.param y hmem h)
      simp [RState.enterBlock, hne, hC, he.locals y hmem, hrel.own y hy]
  · have hmem := List.mem_append_right sc.own hy
    have hne : y ≠ x := fun h => he.visible (h ▸ hy)
    simpa [RState.enterBlock, hne, he.locals y hmem] using hrel.outer y hy

/-- A round ends. -/
theorem Rel.leaveIter (hrel : Rel ctx sc σ c) (he : sc.Enters x locals)
    (hrel' : Rel ctx (sc.push x) σ' c') :
    Rel ctx sc (σ'.leaveBlock σ x locals)
      (c'.setVar (.user (safeDup x)) (c.vars (.user (safeDup x)))) := by
  refine ⟨fun y hy => ?_, fun y hy => ?_, hrel'.ivars, hrel'.trace, hrel'.slot, hrel'.hidden⟩
  · have hmem := List.mem_append_left sc.outer hy
    by_cases hne : y = x
    · subst hne
      simp [RState.leaveBlock, hrel.own y hy]
    · have hC : safeDup y ≠ safeDup x := fun h => hne (he.param y hmem h)
      simpa [RState.leaveBlock, hne, hC, he.locals y hmem] using
        hrel'.own y (List.mem_cons_of_mem _ (mem_unhidden.mpr ⟨hy, hne⟩))
  · have hmem := List.mem_append_right sc.own hy
    have hne : y ≠ x := fun h => he.visible (h ▸ hy)
    simpa [RState.leaveBlock, hne, he.locals y hmem] using hrel'.outer y hy

/-- One round of a loop in the function. -/
theorem iter_round (hb : Simulates h ch ctx (sc.push x) body k code) (he : sc.Enters x locals)
    (hrel : Rel ctx sc σ c) (hfr : Frame k c₀ c) (i : Nat)
    (hal : ReadsAlikeAll h sc.slot body (σ.enterBlock x i locals)) :
    Related (fun _ _ σ' c' => Rel ctx sc σ' c' ∧ Frame k c₀ c') (Exits ctx sc)
      (runBlock (evalAll h body) x locals i σ) (runIter (execAll ch code) (safeDup x) i c) := by
  have hrun := hb _ _ (hrel.enterIter he i) hal
  have hfr₁ : Frame k c (c.setVar (.user (safeDup x)) (.ofNat 64 i)) :=
    .of_eq (fun y hy => by simp [hy]) (by simp) k
  unfold runBlock runIter
  generalize evalAll h body (σ.enterBlock x i locals) = r at hrun ⊢
  generalize execAll ch code (c.setVar (.user (safeDup x)) (.ofNat 64 i)) = r' at hrun ⊢
  obtain ⟨v | e, σ'⟩ := r <;> obtain ⟨u | e', c'⟩ := r'
  · refine ⟨hrel.leaveIter he hrun.1, ((hfr.trans hfr₁ le_rfl).trans hrun.2 le_rfl).trans ?_ le_rfl⟩
    exact .of_eq (fun y hy => by simp [hy]) (by simp) k
  · exact hrun.elim
  · exact hrun.elim
  · exact ⟨hrun.1, hrel.leaveIter he hrun.2.1, hrun.2.2⟩

/-- **A loop in the function**, over a block that is simulated. -/
theorem times_literal_run {n : Int} (hb : Simulates h ch ctx (sc.push x) body k code)
    (he : sc.Enters x locals) (hn : h.rounds (.ofInt 64 n) = bpfLoops (.ofInt 64 n))
    (hal : ReadsAlike h sc.slot (.times (.int n) x locals body) σ) (hrel : Rel ctx sc σ c) :
    Related (fun v _ σ' c' => (∃ σ₁, eval h (.int n) σ = (.ok v, σ₁)) ∧ Rel ctx sc σ' c' ∧
        Frame k c c')
      (Exits ctx sc) (eval h (.times (.int n) x locals body) σ)
      (execAll ch [.iter (safeDup x) n code] c) := by
  have hrounds := (hal.2 (.int (.ofInt 64 n)) σ rfl).2
  rw [Value.word, hn] at hrounds
  simp only [eval, andThen_ok, execAll_cons, execAll_nil, CStmt.exec, Value.word, hn]
  have hloop := Related.repeatFrom (I := fun σ₁ c₁ => Rel ctx sc σ₁ c₁ ∧ Frame k c c₁)
    (fun i _ _ hI hal => iter_round hb he hI.1 hI.2 i hal) (bpfLoops (.ofInt 64 n)) 0
    ⟨hrel.log (.loop (.ofInt 64 n)), .of_eq (by simp) (by simp) k⟩ hrounds
  exact hloop.andThen fun _ _ σ' c' hI => ⟨⟨σ, rfl⟩, hI⟩

theorem sim_times_literal {n : Int} (hbody : SimAll h ch body) :
    Sim h ch (.times (.int n) x locals body) := by
  intro ctx sc u k o σ c hset hok hal hlow hrel
  obtain ⟨a, ha, rfl⟩ := lower_times_literal hlow
  obtain ⟨_, hused, hhost, rfl, hx, hokb⟩ := ok_times_literal.mp hok
  have he := Scope.Enters.of_fresh hx
  have hb := hbody.simulates ⟨hset.apart.push he, hset.rounds, hset.callees⟩ hokb ha
  refine (times_literal_run hb he (congrFun (hset.rounds hhost) _) hal hrel).mono
    fun _ _ σ' c' ⟨_, hrel', hfr⟩ => ?_
  exact Held.mk hrel' hfr ⟨0#64, by simp [hused], fun _ _ _ _ _ => rfl⟩

/-! ### Loops by callback -/

/-- Declarations set their names to zero. -/
theorem declare_run (names : List String) (c : CState) :
    execAll ch (names.map fun s => .decl (.user s) (.int 0)) c =
      (.ok (), { c with vars := fun x => if x ∈ names.map CVar.user then 0#64 else c.vars x }) := by
  induction names generalizing c with
  | nil => simp
  | cons s names ih =>
      have hdecl : (CStmt.decl (.user s) (.int 0)).exec ch c =
          (.ok (), c.setVar (.user s) 0#64) := by
        rw [CStmt.exec, CExpr.eval]
        rfl
      rw [List.map_cons, execAll_cons, hdecl, andThen_ok, ih]
      congr 2
      funext x
      by_cases hx : x = .user s
      · simp [hx]
      · simp [hx]

theorem declareLocals_run (names : List String) (c : CState) :
    execAll ch (declareLocals names) c =
      (.ok (), { c with vars := fun x => if x ∈ names.map CVar.user then 0#64 else c.vars x }) := by
  rw [declareLocals, declare_run]
  simp

/-- A callback is entered and declares its locals. -/
theorem Rel.enterCallback (hrel : Rel ctx sc σ c) (he : sc.Enters x locals) (i : Nat)
    (caps : Captures) (hnames : ∀ s ∈ names, s ≠ safeDup x)
    (hhid : ∀ p ∈ hidden, c.vars (.user p.1) = p.2) :
    Rel { ctx with captures := caps } (sc.enter x hidden) (σ.enterBlock x i locals)
      { c.enterCallback (safeDup x) i with
        vars := fun v => if v ∈ names.map CVar.user then 0#64
          else (c.enterCallback (safeDup x) i).vars v } := by
  refine ⟨fun y hy => ?_, fun y hy => ?_, hrel.ivars, hrel.trace, hrel.slot, hhid⟩
  · obtain rfl := List.mem_singleton.mp hy
    have hname : safeDup y ∉ names := fun hmem => hnames _ hmem rfl
    simp [hname, CState.enterCallback, RState.enterBlock, Value.word]
  · obtain ⟨hy, hne⟩ := mem_unhidden.mp hy
    simpa [CState.enterCallback, RState.enterBlock, hne,
      he.locals y (List.mem_append_left _ hy)] using hrel.own y hy

/-- A callback returns. -/
theorem Rel.leaveCallback (hrel : Rel ctx sc σ c) (he : sc.Enters x locals) (hout : sc.outer = [])
    (hhid : x ∈ sc.own → (safeDup x, c.vars (.user (safeDup x))) ∈ hidden)
    (hrel' : Rel { ctx with captures := caps } (sc.enter x hidden) σ' c') :
    Rel ctx sc (σ'.leaveBlock σ x locals) (c'.leaveCallback c) := by
  refine ⟨fun y hy => ?_, fun y hy => ?_, hrel'.ivars, hrel'.trace, hrel'.slot, hrel.hidden⟩
  · by_cases hne : y = x
    · -- the parameter hides it: no pointer of the struct leads to it
      subst hne
      exact (hrel'.hidden _ (hhid hy)).trans (by simp [RState.leaveBlock, hrel.own y hy])
    · simpa [CState.leaveCallback, RState.leaveBlock, hne,
        he.locals y (List.mem_append_left _ hy)] using hrel'.outer y (mem_unhidden.mpr ⟨hy, hne⟩)
  · rw [hout] at hy
    exact absurd hy List.not_mem_nil

/-- One call of a loop callback. -/
theorem callback_round
    (hb : Simulates h ch { ctx with captures := caps } (sc.enter x hidden) body 0 code) (he : sc.Enters x locals) (hout : sc.outer = []) (hnames : ∀ s ∈ names, s ≠ safeDup x)
    (hin : ∀ p ∈ hidden, c.vars (.user p.1) = p.2)
    (hhid : x ∈ sc.own → (safeDup x, c.vars (.user (safeDup x))) ∈ hidden) (hrel : Rel ctx sc σ c)
    (hfr : Frame k c₀ c) (i : Nat)
    (hal : ReadsAlikeAll h sc.slot body (σ.enterBlock x i locals)) :
    Related (fun _ _ σ' c' => Rel ctx sc σ' c' ∧ Frame k c₀ c') (fun _ _ _ _ => False)
      (runBlock (evalAll h body) x locals i σ)
      (runCallback (execAll ch (declareLocals names ++ code)) (safeDup x) i c) := by
  have hrun := hb _ _ (hrel.enterCallback he i caps hnames hin) hal
  -- a block that passes the check does not return from the method
  obtain ⟨v, _, σ', c', hev, hex, hrel', _⟩ := hrun.ok fun _ _ _ _ hexit => nomatch hexit.1
  unfold runBlock runCallback
  rw [execAll_append, declareLocals_run, andThen_ok, hev, hex]
  exact ⟨hrel.leaveCallback he hout hhid hrel',
    hfr.trans ⟨fun _ _ => rfl, fun _ _ => rfl, fun _ _ => rfl⟩ le_rfl⟩

/-- **A loop by callback**, over a block that is simulated. -/
theorem times_run (hrecv : Sim h ch r) (hset : Setting h ch ctx sc)
    (hok : ok h.omits ctx sc .operand r = true) (hb : lower ctx .expr r k = .ok b)
    (hround : ∀ i σ c c₀, Rel ctx sc σ c → Frame k c₀ c →
      ReadsAlikeAll h sc.slot body (σ.enterBlock x i locals) →
      Related (fun _ _ σ' c' => Rel ctx sc σ' c' ∧ Frame k c₀ c') (fun _ _ _ _ => False)
        (runBlock (evalAll h body) x locals i σ) (runCallback (execAll ch code) (safeDup x) i c))
    (hn : ∀ n σ₁, eval h r σ = (.ok n, σ₁) → h.rounds n.word = bpfLoops n.word)
    (hal : ReadsAlike h sc.slot (.times r x locals body) σ) (hrel : Rel ctx sc σ c) :
    Related (fun v _ σ' c' => (∃ σ₁, eval h r σ = (.ok v, σ₁)) ∧ Rel ctx sc σ' c' ∧ Frame k c c')
      (Exits ctx sc) (eval h (.times r x locals body) σ)
      (execAll ch (b.code ++ [.bpfLoop b.value (safeDup x) code]) c) := by
  rw [execAll_append, eval]
  refine (hrecv.operand hset hok hal.1 hb hrel).andThen fun n _ σ₁ c₁ ⟨h₁, hrun₁⟩ => ?_
  have hrounds := (hal.2 n σ₁ hrun₁).2
  rw [hn n σ₁ hrun₁] at hrounds ⊢
  obtain ⟨w, hw, hst⟩ := h₁.text
  have htext := hst.eval (.refl _ _) h₁.rel
  rw [hw rfl] at htext
  have hrel₁ : Rel ctx sc (σ₁.log (.loop n.word)) (c₁.log (.loop n.word)) := h₁.rel.log _
  obtain ⟨_, _, σ₂, c₂, hev, hex, hI⟩ := (Related.repeatFrom
    (I := fun σ₂ c₂ => Rel ctx sc σ₂ c₂ ∧ Frame k c c₂)
    (fun i σ c' hI hal => hround i σ c' c hI.1 hI.2 hal) (bpfLoops n.word) 0
    ⟨hrel₁, h₁.frame.trans (.of_eq (by simp) (by simp) k) le_rfl⟩ hrounds).ok fun _ _ _ _ => id
  rw [execAll_cons, CStmt.exec, htext]
  simp only [hev, hex, andThen_ok, execAll_nil]
  exact ⟨⟨σ₁, hrun₁⟩, hI⟩

theorem sim_times (hr : ∀ n, r ≠ .int n) (hrecv : Sim h ch r) (hbody : SimAll h ch body) :
    Sim h ch (.times r x locals body) := by
  intro ctx sc u k o σ c hset hok hal hlow hrel
  obtain ⟨a, b, names, hnames, ha, hb, rfl⟩ := lower_times hr hlow
  obtain ⟨_, hused, hhost, rfl, hx, _, hout, hokr, hokb⟩ := (ok_times hr).mp hok
  have he := Scope.Enters.of_fresh hx
  have hfresh : x ∉ sc.own := fun hmem =>
    Scope.fresh_iff.mp hx x (List.mem_append_left _ hmem) rfl
  have hin : Setting h ch { ctx with captures := ctx.collectCaptures (safeDup x) body }
      (sc.enter x []) := ⟨hset.apart.enter he, hset.rounds, hset.callees⟩
  refine (times_run hrecv hset hokr hb (fun i σ c c₀ hrel hfr hal =>
    callback_round (hbody.simulates hin hokb ha) he hout hnames nofun
      (fun hmem => absurd hmem hfresh) hrel hfr i hal)
    (fun _ _ _ => congrFun (hset.rounds hhost) _) hal hrel).mono
    fun _ _ σ' c' ⟨_, hrel', hfr⟩ => ?_
  exact Held.mk hrel' hfr ⟨0#64, by simp [hused], fun _ _ _ _ _ => rfl⟩

end

/-! ### The whole source -/

mutual

/-- **A node that passes the check is simulated by its lowering.** -/
theorem sim : ∀ n : Node, Sim h ch n
  | .int v => sim_int v
  | .lvar x => sim_lvar x
  | .ivar x => sim_ivar x
  | .binop _ l r => sim_binop (sim l) (sim r)
  | .and l r => sim_and (sim l) (sim r)
  | .or l r => sim_or (sim l) (sim r)
  | .paren body => sim_paren (simAll body)
  | .lwrite _ v => sim_lwrite (sim v)
  | .iwrite _ v => sim_iwrite (sim v)
  | .iopwrite _ _ v => sim_iopwrite (sim v)
  | .ret args => sim_ret (simEach args)
  | .ifNode p t e => sim_if (sim p) (simAll t) (simAll e)
  | .emit v => sim_emit (sim v)
  | .call _ _ args => sim_call (simArgs args)
  | .times r _ _ body => by
      by_cases hr : ∃ n, r = .int n
      · obtain ⟨n, rfl⟩ := hr
        exact sim_times_literal (simAll body)
      · exact sim_times (not_exists.mp hr) (sim r) (simAll body)

/-- **Statements that pass the check are simulated by their lowering.** -/
theorem simAll : ∀ ns : List Node, SimAll h ch ns
  | [] => simAll_nil
  | [n] => simAll_single (sim n)
  | n :: m :: ns => simAll_cons (sim n) (simAll (m :: ns))

theorem simArgs : ∀ ns : List Node, SimArgs h ch ns
  | [] => simArgs_nil
  | n :: ns => simArgs_cons (sim n) (simArgs ns)

theorem simEach : ∀ ns : List Node, ∀ n ∈ ns, Sim h ch n
  | [], _, hn => nomatch hn
  | m :: ns, n, hn => by
      rcases List.mem_cons.mp hn with he | hn
      · exact he ▸ sim m
      · exact simEach ns n hn

end

end SpinelEbpf.Codegen

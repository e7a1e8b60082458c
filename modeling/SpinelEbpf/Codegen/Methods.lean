import SpinelEbpf.Codegen.Simulation

/-!
# Codegen — Methods

A call of the generated function against a call of the method (`method_sim`): from arguments and
instance variables that correspond, both leave the same effects in the same order, corresponding
instance variables, and, if the method has a value, the same value.
-/

namespace SpinelEbpf.Codegen
open Outcome

/-- The locals of a method: its parameters and what it assigns. -/
def Method.names (m : Method) : List String := m.params ++ collectAll localWrite m.body

/-- The scope of a method's body. -/
def Method.scope (m : Method) (hosted : Bool) (slot : Slot) : Scope :=
  ⟨m.names, [], [], false, hosted, slot⟩

/-- No two locals of the method have the same name in C. -/
def Method.NamesApart (m : Method) : Prop :=
  ∀ x ∈ m.names, ∀ y ∈ m.names, safeDup x = safeDup y → x = y

instance (m : Method) : Decidable m.NamesApart := by
  unfold Method.NamesApart
  infer_instance

/-- The value a C function hands back. -/
def returned : Outcome (Option Word) Unit → Option Word
  | .ok _   => none
  | .exit r => r

/-- Two calls correspond. -/
structure Agrees (m : Method) (ctx : Ctx) (r : Option Value × RState)
    (r' : Outcome (Option Word) Unit × CState) : Prop where
  trace : r'.2.trace = r.2.trace.map (Event.toC ctx)
  ivars : ∀ x, r'.2.maps (ctx.ivarMap x) = (r.2.ivars x).word
  value : ∃ v, r.1 = some v ∧ returned r'.1 = if m.void then none else some v.word

/-! ### The frame at the start -/

variable {x : String} {params : List String} {args : List Word} {m : Method}

theorem lookup_map_safeDup {names : List String} (hx : x ∈ names)
    (hinj : ∀ x ∈ names, ∀ y ∈ names, safeDup x = safeDup y → x = y) (hsub : params ⊆ names)
    (args : List Word) :
    ((params.map safeDup).zip args).lookup (safeDup x) = (params.zip args).lookup x := by
  induction params generalizing args with
  | nil => rfl
  | cons p params ih =>
      obtain ⟨hp, hsub⟩ := List.cons_subset.mp hsub
      cases args with
      | nil => rfl
      | cons a args =>
          by_cases hxp : x = p
          · simp [hxp]
          · have hne : safeDup x ≠ safeDup p := fun he => hxp (hinj x hx p hp he)
            simp [List.lookup_cons, beq_false_of_ne hxp, beq_false_of_ne hne, ih hsub]

theorem lookup_zip_isSome (hx : x ∈ params) (hlen : args.length = params.length) :
    ∃ w, (params.zip args).lookup x = some w := by
  induction params generalizing args with
  | nil => exact nomatch hx
  | cons p params ih =>
      cases args with
      | nil => exact nomatch hlen
      | cons a args =>
          by_cases hxp : x = p
          · exact ⟨a, by simp [hxp]⟩
          · obtain ⟨w, hw⟩ := ih (List.mem_of_ne_of_mem hxp hx) (Nat.succ.inj hlen)
            exact ⟨w, by simp [List.lookup_cons, beq_false_of_ne hxp, hw]⟩

theorem lookup_zip_none (hx : x ∉ params) (args : List Word) :
    (params.zip args).lookup x = none := by
  induction params generalizing args with
  | nil => rfl
  | cons p params ih =>
      obtain ⟨hxp, hx⟩ := not_or.mp (List.mem_cons.not.mp hx)
      cases args with
      | nil => rfl
      | cons a args => simp [List.lookup_cons, beq_false_of_ne hxp, ih hx]

/-- The state a call of a method starts from. -/
def Method.start (m : Method) (args : List Word) (ivars : String → Value) : RState :=
  ⟨bindParams m.params args, ivars, []⟩

theorem start_rel {mapPrefix : String} {hosted : Bool} {slot : Slot} {ivars : String → Value}
    {maps : String → Word} (frame : CVar → Word) (hnames : m.NamesApart)
    (hargs : args.length = m.params.length)
    (hmaps : ∀ x, maps ((m.ctx mapPrefix).ivarMap x) = (ivars x).word) :
    Rel (m.ctx mapPrefix) (m.scope hosted slot) (m.start args ivars)
      { startC slot m.params args maps frame with
        vars := fun x => if x ∈ m.declared.map CVar.user then 0#64
          else (startC slot m.params args maps frame).vars x } := by
  refine ⟨fun x hx => ?_, nofun, hmaps, rfl, rfl, nofun⟩
  have hlook := lookup_map_safeDup hx hnames (List.subset_append_left _ _) args
  by_cases hp : x ∈ m.params
  · obtain ⟨w, hw⟩ := lookup_zip_isSome hp hargs
    have hdecl : safeDup x ∉ m.declared := by
      simp only [Method.declared, List.mem_filter, decide_eq_true_eq, not_and, not_not]
      exact fun _ => List.mem_map_of_mem hp
    simp [hdecl, startC, hlook, hw, Method.start, bindParams, Value.word]
  · have hdecl : safeDup x ∈ m.declared := by
      simp only [Method.declared, List.mem_filter, decide_eq_true_eq]
      refine ⟨List.mem_map_of_mem ((List.mem_append.mp hx).resolve_left hp), fun hmem => ?_⟩
      obtain ⟨y, hy, hyx⟩ := List.mem_map.mp hmem
      exact hp (hnames y (List.mem_append_left _ hy) x hx hyx ▸ hy)
    simp [hdecl, Method.start, bindParams, lookup_zip_none hp, Value.word]

/-! ### A call -/

theorem Method.NamesApart.apart (h : m.NamesApart) (hosted : Bool) (slot : Slot) :
    (m.scope hosted slot).Apart :=
  ⟨fun x hx y hy => h x (by simpa [Method.scope] using hx) y (by simpa [Method.scope] using hy),
    fun _ _ => List.not_mem_nil, nofun⟩

/-- **A call of the generated function is a call of the method**, in a run that C reads as Ruby
does. -/
theorem method_sim {h : Host} {ch : CHost} {mapPrefix : String} {hosted : Bool} {slot : Slot}
    {code : List CStmt} {ivars : String → Value} {maps : String → Word} (frame : CVar → Word)
    (hcode : emitMethodBody m mapPrefix = .ok code)
    (hok : okAll h.omits (m.ctx mapPrefix) (m.scope hosted slot) (!m.void) (!m.void) m.body = true)
    (halike : ReadsAlikeAll h slot m.body (m.start args ivars)) (hnames : m.NamesApart)
    (hhost : hosted = true → h.rounds = bpfLoops ∧ CalleesAgree h.callee ch (m.ctx mapPrefix))
    (hargs : args.length = m.params.length)
    (hmaps : ∀ x, maps ((m.ctx mapPrefix).ivarMap x) = (ivars x).word) :
    Agrees m (m.ctx mapPrefix) (m.call h args ivars)
      (callC ch slot code m.params args maps frame) := by
  obtain ⟨o, ho, hcode⟩ := bind_ok hcode
  have hset : Setting h ch (m.ctx mapPrefix) (m.scope hosted slot) :=
    ⟨hnames.apart hosted slot, fun hh => (hhost hh).1, fun hh => (hhost hh).2⟩
  have hrun := simAll m.body hset hok halike ho (start_rel frame hnames hargs hmaps)
  obtain rfl := Except.ok.inj hcode
  unfold Method.call callC
  rw [execAll_append, execAll_append, declareLocals_run, andThen_ok, ← Method.start]
  generalize evalAll h m.body _ = r at hrun ⊢
  generalize execAll ch o.code _ = r' at hrun ⊢
  obtain ⟨v | e, σ⟩ := r <;> obtain ⟨u | e', c⟩ := r'
  · cases hvoid : m.void with
    | true =>
        -- the text of the last statement is not used
        rw [hvoid] at hrun
        have hrel := (After.settled hrun fun _ => rfl).1
        exact ⟨hrel.trace, hrel.ivars, v, rfl, by simp [returned, hvoid]⟩
    | false =>
        rw [hvoid] at hrun
        obtain ⟨w, c', heval, hw, hrel, _⟩ := (After.consumed hrun fun _ => rfl).text
        simp only [andThen_ok, Bool.false_eq_true, if_false, execAll_cons, CStmt.exec, heval,
          andThen_exit]
        exact ⟨hrel.trace, hrel.ivars, v, rfl, by simp [returned, hvoid, hw rfl]⟩
  · exact hrun.elim
  · exact hrun.elim
  · obtain ⟨_, hrel, hret⟩ := hrun
    cases e with
    | raise => exact hret.elim
    | ret v => exact ⟨hrel.trace, hrel.ivars, v, rfl, hret⟩

/-! ### Callees that do nothing -/

def idleCallees : Behaviour := fun _ _ ivars => (.nil, ivars)

def idleFunctions : CHost := fun _ _ maps => (0#64, maps)

end SpinelEbpf.Codegen

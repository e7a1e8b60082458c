import SpinelEbpf.Codegen.Ast

/-!
# Codegen — the names in the generated C

A method of a class becomes `<class>_<name>`, an instance variable `<class>_at_<name>` or
`<unit>_top_<name>`, with the class in lower case; a top-level method and a local keep their names,
with an underscore if they are C keywords.  Each of these steps can make two names one, and no
others do: `join_iff` is all the ways in which a text splits in two at an underscore, and
`names_injective_iff` says exactly which units have clashing names.
-/

namespace SpinelEbpf.Codegen.Naming

/-! ### Words joined by an underscore -/

section Joined

variable {α : Type} {a : α}

/-- Two ways to split one list at a separator. -/
theorem append_cons_eq_iff {p n q m : List α} :
    p ++ a :: n = q ++ a :: m ↔
      (p = q ∧ n = m) ∨ (∃ r, q = p ++ a :: r ∧ n = r ++ a :: m) ∨
        ∃ r, p = q ++ a :: r ∧ m = r ++ a :: n := by
  constructor
  · intro h
    rcases List.append_eq_append_iff.mp h with ⟨s, rfl, hs⟩ | ⟨s, rfl, hs⟩
    · cases s with
      | nil => exact .inl ⟨(List.append_nil p).symm, (List.cons.inj hs).2⟩
      | cons b r =>
          obtain ⟨rfl, rfl⟩ := List.cons.inj hs
          exact .inr (.inl ⟨r, rfl, rfl⟩)
    · cases s with
      | nil => exact .inl ⟨List.append_nil q, (List.cons.inj hs).2.symm⟩
      | cons b r =>
          obtain ⟨rfl, rfl⟩ := List.cons.inj hs
          exact .inr (.inr ⟨r, rfl, rfl⟩)
  · rintro (⟨rfl, rfl⟩ | ⟨r, rfl, rfl⟩ | ⟨r, rfl, rfl⟩)
    · rfl
    · rw [List.append_assoc, List.cons_append]
    · rw [List.append_assoc, List.cons_append]

end Joined

/-- `p_n`. -/
def join (p n : String) : String := p ++ "_" ++ n

theorem toList_join (p n : String) : (join p n).toList = p.toList ++ '_' :: n.toList := by
  rw [join, String.toList_append, String.toList_append, List.append_assoc]
  rfl

/-- `q` is `p` with more after an underscore, and `n` has what is missing. -/
def Continues (p n q m : String) : Prop := ∃ r, q = join p r ∧ n = join r m

theorem continues_iff (p n q m : String) :
    Continues p n q m ↔
      ∃ r, q.toList = p.toList ++ '_' :: r ∧ n.toList = r ++ '_' :: m.toList := by
  constructor
  · rintro ⟨r, rfl, rfl⟩
    exact ⟨r.toList, toList_join .., toList_join ..⟩
  · rintro ⟨r, hq, hn⟩
    refine ⟨String.ofList r, String.toList_injective ?_, String.toList_injective ?_⟩
    · rw [hq, toList_join, String.toList_ofList]
    · rw [hn, toList_join, String.toList_ofList]

/-- **All the ways to join two words to one text.** -/
theorem join_iff (p n q m : String) :
    join p n = join q m ↔ (p = q ∧ n = m) ∨ Continues p n q m ∨ Continues q m p n := by
  rw [← String.toList_inj, toList_join, toList_join, append_cons_eq_iff, String.toList_inj,
    String.toList_inj, continues_iff, continues_iff]

theorem join_right_inj {p n m : String} : join p n = join p m ↔ n = m := by
  rw [join, join, String.append_right_inj]

theorem mem_join (p n : String) : '_' ∈ (join p n).toList := by
  rw [toList_join]
  exact List.mem_append_right _ List.mem_cons_self

/-- `q` continues `p`, where `p` is followed by the mark `σ` and `q` by the mark `τ`. -/
def MarkedContinues (p σ x q τ y : String) : Prop :=
  (q = join p σ ∧ x = join τ y) ∨ ∃ r, q = join p (join σ r) ∧ x = join r (join τ y)

theorem continues_marked_iff {p σ x q τ y : String} (hσ : '_' ∉ σ.toList) :
    Continues p (join σ x) q (join τ y) ↔ MarkedContinues p σ x q τ y := by
  constructor
  · rintro ⟨r, rfl, hx⟩
    rcases (join_iff ..).mp hx with ⟨rfl, rfl⟩ | ⟨r', rfl, rfl⟩ | ⟨r', rfl, -⟩
    · exact .inl ⟨rfl, rfl⟩
    · exact .inr ⟨r', rfl, rfl⟩
    · exact absurd (mem_join ..) hσ
  · rintro (⟨rfl, rfl⟩ | ⟨r, rfl, rfl⟩)
    · exact ⟨σ, rfl, rfl⟩
    · exact ⟨join σ r, rfl, (join_iff ..).mpr (.inr (.inl ⟨r, rfl, rfl⟩))⟩

/-- **All the ways to join two words with a mark between them.** -/
theorem join_marked_iff {p σ x q τ y : String} (hσ : '_' ∉ σ.toList) (hτ : '_' ∉ τ.toList) :
    join p (join σ x) = join q (join τ y) ↔
      (p = q ∧ σ = τ ∧ x = y) ∨ MarkedContinues p σ x q τ y ∨ MarkedContinues q τ y p σ x := by
  have hmarks : join σ x = join τ y ↔ σ = τ ∧ x = y := by
    rw [join_iff]
    refine or_iff_left ?_
    rintro (⟨r, rfl, -⟩ | ⟨r, rfl, -⟩)
    · exact hτ (mem_join ..)
    · exact hσ (mem_join ..)
  rw [join_iff, hmarks, continues_marked_iff hσ, continues_marked_iff hτ]

/-! ### Names -/

/-- `cc_lower`. -/
def ccLower (s : String) : String :=
  s.map fun c => if 'A' ≤ c ∧ c ≤ 'Z' then Char.ofNat (c.toNat + 32) else c

/-- The name of a class; a Ruby constant does not start with an underscore. -/
structure ClassName where
  text : String
  first : ∃ c rest, text.toList = c :: rest ∧ c ≠ '_'

/-- A Ruby method, at the top level or in a class; it has a name. -/
structure MethodName where
  cls : Option ClassName
  name : String
  nonempty : name ≠ ""

/-- An instance variable without its `@`, in the scope of a class or of the top level. -/
structure Ivar where
  cls : Option ClassName
  bare : String

/-- `CC_DSL_PARENTS`. -/
def ccDslParents : List (String × String) :=
  [("BPF::XDP", "xdp__"), ("BPF::SockOps", "sock_ops__"), ("BPF::TcIngress", "tc__ingress__"),
   ("BPF::TcEgress", "tc__egress__"), ("BPF::SkReuseport", "sk_reuseport__"),
   ("BPF::SkMsg", "sk_msg__"), ("BPF::TcpCC", "tcp_cc__"), ("BPF::SchedExt", "sched_ext__"),
   ("BPF::Qdisc", "qdisc__")]

/-- `cc_dsl_parent_prefix`. -/
def ccDslParentPrefix (path : String) : Option String :=
  (ccDslParents.find? fun row => row.1 == path).map (·.2)

/-- A compiled unit: its name, the DSL parent of each class (the empty text if it has none), its
methods, its instance variables, and the locals and parameters of each method. -/
structure CompiledUnit where
  name : String
  parent : ClassName → String
  methods : List MethodName
  ivars : List Ivar
  locals : List (List String)

namespace CompiledUnit

variable (u : CompiledUnit)

/-- The class that a method has once `cc_bind_dsl_class_attach` has run: a class with a DSL parent
is dissolved into the top level. -/
def scope (cls : Option ClassName) : Option ClassName :=
  cls.filter fun c => (ccDslParentPrefix (u.parent c)).isNone

/-- What `cc_bind_dsl_class_attach` puts before the names of the methods of a class. -/
def lead (cls : Option ClassName) : String :=
  ((cls.bind fun c => ccDslParentPrefix (u.parent c)).getD "")

/-- `cc_bind_dsl_class_attach`, of one method. -/
def ccBindDslClassAttach (me : MethodName) : MethodName where
  cls := u.scope me.cls
  name := u.lead me.cls ++ me.name
  nonempty h := me.nonempty (String.append_eq_empty_iff.mp h).2

end CompiledUnit

/-- `cc_func_name`. -/
def ccFuncName (me : MethodName) : String :=
  match me.cls with
  | some c => join (ccLower c.text) me.name
  | none   => safeDup me.name

/-- `cc_ivar_map`, in a method whose class is the variable's. -/
def ccIvarMap (unit : String) (v : Ivar) : String :=
  match v.cls with
  | some c => join (ccLower c.text) (join "at" v.bare)
  | none   => join unit (join "top" v.bare)

namespace CompiledUnit

variable (u : CompiledUnit)

/-- The C function of a Ruby method. -/
def funcName (me : MethodName) : String := ccFuncName (u.ccBindDslClassAttach me)

/-- The map of an instance variable: the methods that use it have the class that is left of its
scope. -/
def ivarMap (v : Ivar) : String := ccIvarMap u.name ⟨u.scope v.cls, v.bare⟩

end CompiledUnit

/-! ### Keywords -/

/-- One name is a keyword and the other is that keyword with an underscore. -/
def Suffixed (x y : String) : Prop :=
  (x ∈ cKeywords ∧ y = x ++ "_") ∨ (y ∈ cKeywords ∧ x = y ++ "_")

/-- A keyword with an underscore is not a keyword. -/
theorem suffixed_not_keyword : ∀ k ∈ cKeywords, k ++ "_" ∉ cKeywords := by decide +kernel

/-- A keyword with an underscore in it starts with one. -/
theorem keyword_underscore :
    ∀ k ∈ cKeywords, '_' ∈ k.toList → k.toList.head? = some '_' := by decide +kernel

theorem append_underscore_inj {x y : String} (h : x ++ "_" = y ++ "_") : x = y := by
  have hl := congrArg String.toList h
  rw [String.toList_append, String.toList_append] at hl
  exact String.toList_injective (List.append_cancel_right hl)

/-- **When two distinct locals get one identifier.** -/
theorem safeDup_eq_iff (x y : String) : safeDup x = safeDup y ↔ x = y ∨ Suffixed x y := by
  unfold safeDup Suffixed
  -- a suffixed keyword is not a keyword, so a name is suffixed once at most
  by_cases hx : x ∈ cKeywords <;> by_cases hy : y ∈ cKeywords
  · rw [if_pos hx, if_pos hy]
    constructor
    · exact fun h => .inl (append_underscore_inj h)
    · rintro (rfl | ⟨-, rfl⟩ | ⟨-, rfl⟩)
      · rfl
      · exact absurd hy (suffixed_not_keyword x hx)
      · exact absurd hx (suffixed_not_keyword y hy)
  · rw [if_pos hx, if_neg hy]
    constructor
    · exact fun h => .inr (.inl ⟨hx, h.symm⟩)
    · rintro (rfl | ⟨-, rfl⟩ | ⟨hy', -⟩)
      · exact absurd hx hy
      · rfl
      · exact absurd hy' hy
  · rw [if_neg hx, if_pos hy]
    constructor
    · exact fun h => .inr (.inr ⟨hy, h⟩)
    · rintro (rfl | ⟨hx', -⟩ | ⟨-, rfl⟩)
      · exact absurd hy hx
      · exact absurd hx' hx
      · rfl
  · rw [if_neg hx, if_neg hy]
    refine ⟨.inl, ?_⟩
    rintro (rfl | ⟨hx', -⟩ | ⟨hy', -⟩)
    · rfl
    · exact absurd hx' hx
    · exact absurd hy' hy

/-! ### Methods -/

theorem lower_ne_underscore {d : Char} (h : 'A' ≤ d ∧ d ≤ 'Z') :
    Char.ofNat (d.toNat + 32) ≠ '_' := by
  have hlow : 65 ≤ d.toNat := h.1
  have hhigh : d.toNat ≤ 90 := h.2
  have hunder : '_'.toNat = 95 := rfl
  intro he
  have hnat := congrArg Char.toNat he
  rw [Char.toNat_ofNat, if_pos (Or.inl (by omega))] at hnat
  omega

/-- The lower-cased name of a class does not start with an underscore either. -/
theorem ccLower_first (c : ClassName) :
    ∃ d rest, (ccLower c.text).toList = d :: rest ∧ d ≠ '_' := by
  obtain ⟨d, rest, htext, hd⟩ := c.first
  rw [ccLower, String.toList_map, htext, List.map_cons]
  refine ⟨_, _, rfl, ?_⟩
  split
  · exact lower_ne_underscore ‹_›
  · exact hd

/-- No keyword is a class joined to something. -/
theorem join_not_keyword (c : ClassName) (n : String) : join (ccLower c.text) n ∉ cKeywords := by
  intro hmem
  obtain ⟨d, rest, hlow, hd⟩ := ccLower_first c
  have hhead := keyword_underscore _ hmem (mem_join ..)
  rw [toList_join, hlow, List.cons_append, List.head?_cons] at hhead
  exact hd (Option.some.inj hhead)

theorem append_underscore (k : String) : k ++ "_" = join k "" := by
  rw [join, String.append_empty]

/-- Nor is a keyword with an underscore a class joined to a method. -/
theorem join_ne_suffixed (c : ClassName) {n k : String} (hn : n ≠ "") (hk : k ∈ cKeywords) :
    k ++ "_" ≠ join (ccLower c.text) n := by
  rw [append_underscore]
  intro he
  -- the class ends where the keyword does, behind it, or inside it
  rcases (join_iff ..).mp he with ⟨-, hempty⟩ | ⟨r, -, hempty⟩ | ⟨r, rfl, -⟩
  · exact hn hempty.symm
  · have hmem := mem_join r n
    rw [← hempty] at hmem
    exact absurd hmem (by decide)
  · exact join_not_keyword c r hk

/-- A top-level method meets a method of a class only if it is spelled like it. -/
theorem safeDup_eq_join_iff (c : ClassName) {n : String} (hn : n ≠ "") (x : String) :
    safeDup x = join (ccLower c.text) n ↔ x = join (ccLower c.text) n := by
  unfold safeDup
  split
  · rename_i hx
    constructor
    · exact fun he => absurd he (join_ne_suffixed c hn hx)
    · rintro rfl
      exact absurd hx (join_not_keyword c n)
  · exact Iff.rfl

/-- Two spellings of methods that come out as one C function. -/
def FuncMeet (a b : MethodName) : Prop :=
  match a.cls, b.cls with
  | none, none     => a.name = b.name ∨ Suffixed a.name b.name
  | none, some d   => a.name = join (ccLower d.text) b.name
  | some c, none   => b.name = join (ccLower c.text) a.name
  | some c, some d =>
      (ccLower c.text = ccLower d.text ∧ a.name = b.name) ∨
        Continues (ccLower c.text) a.name (ccLower d.text) b.name ∨
        Continues (ccLower d.text) b.name (ccLower c.text) a.name

theorem ccFuncName_eq_iff (a b : MethodName) : ccFuncName a = ccFuncName b ↔ FuncMeet a b := by
  unfold ccFuncName FuncMeet
  -- the keyword suffix is put at the top level only, so it never meets a class
  rcases a.cls with _ | c <;> rcases b.cls with _ | d
  · exact safeDup_eq_iff ..
  · exact safeDup_eq_join_iff d b.nonempty a.name
  · exact eq_comm.trans (safeDup_eq_join_iff c a.nonempty b.name)
  · exact join_iff ..

/-! ### Instance variables -/

/-- Two instance variables that come out as one map. -/
def IvarMeet (unit : String) (v w : Ivar) : Prop :=
  match v.cls, w.cls with
  | none, none     => v.bare = w.bare
  | none, some d   =>
      MarkedContinues unit "top" v.bare (ccLower d.text) "at" w.bare ∨
        MarkedContinues (ccLower d.text) "at" w.bare unit "top" v.bare
  | some c, none   =>
      MarkedContinues (ccLower c.text) "at" v.bare unit "top" w.bare ∨
        MarkedContinues unit "top" w.bare (ccLower c.text) "at" v.bare
  | some c, some d =>
      (ccLower c.text = ccLower d.text ∧ v.bare = w.bare) ∨
        MarkedContinues (ccLower c.text) "at" v.bare (ccLower d.text) "at" w.bare ∨
        MarkedContinues (ccLower d.text) "at" w.bare (ccLower c.text) "at" v.bare

theorem at_no_underscore : '_' ∉ "at".toList := by decide

theorem top_no_underscore : '_' ∉ "top".toList := by decide

theorem ccIvarMap_eq_iff (unit : String) (v w : Ivar) :
    ccIvarMap unit v = ccIvarMap unit w ↔ IvarMeet unit v w := by
  have hmarks : "top" ≠ "at" := by decide
  unfold ccIvarMap IvarMeet
  rcases v.cls with _ | c <;> rcases w.cls with _ | d <;> dsimp only
  · rw [join_right_inj, join_right_inj]
  · rw [join_marked_iff top_no_underscore at_no_underscore]
    exact or_iff_right fun h => hmarks h.2.1
  · rw [join_marked_iff at_no_underscore top_no_underscore]
    exact or_iff_right fun h => hmarks h.2.1.symm
  · rw [join_marked_iff at_no_underscore at_no_underscore]
    simp only [true_and]

/-! ### A compiled unit -/

namespace CompiledUnit

variable (u : CompiledUnit)

/-- Distinct methods, instance variables and locals of one method get distinct names. -/
def InjectiveNames : Prop :=
  Set.InjOn u.funcName {me | me ∈ u.methods} ∧ Set.InjOn u.ivarMap {v | v ∈ u.ivars} ∧
    ∀ names ∈ u.locals, Set.InjOn safeDup {x | x ∈ names}

/-- No two distinct names of the unit are spelled so that they meet. -/
structure Clear : Prop where
  methods : ∀ a ∈ u.methods, ∀ b ∈ u.methods, a ≠ b →
    ¬ FuncMeet (u.ccBindDslClassAttach a) (u.ccBindDslClassAttach b)
  ivars : ∀ v ∈ u.ivars, ∀ w ∈ u.ivars, v ≠ w →
    ¬ IvarMeet u.name ⟨u.scope v.cls, v.bare⟩ ⟨u.scope w.cls, w.bare⟩
  locals : ∀ names ∈ u.locals, ∀ x ∈ names, ∀ y ∈ names, ¬ Suffixed x y

theorem injOn_funcName_iff :
    Set.InjOn u.funcName {me | me ∈ u.methods} ↔
      ∀ a ∈ u.methods, ∀ b ∈ u.methods, a ≠ b →
        ¬ FuncMeet (u.ccBindDslClassAttach a) (u.ccBindDslClassAttach b) := by
  simp only [← ccFuncName_eq_iff]
  exact forall₄_congr fun a _ b _ => not_imp_not.symm

theorem injOn_ivarMap_iff :
    Set.InjOn u.ivarMap {v | v ∈ u.ivars} ↔
      ∀ v ∈ u.ivars, ∀ w ∈ u.ivars, v ≠ w →
        ¬ IvarMeet u.name ⟨u.scope v.cls, v.bare⟩ ⟨u.scope w.cls, w.bare⟩ := by
  simp only [← ccIvarMap_eq_iff]
  exact forall₄_congr fun v _ w _ => not_imp_not.symm

end CompiledUnit

theorem Suffixed.ne {x y : String} (h : Suffixed x y) : x ≠ y := by
  rintro rfl
  rcases h with ⟨hx, he⟩ | ⟨hx, he⟩
  · exact suffixed_not_keyword x hx (he ▸ hx)
  · exact suffixed_not_keyword x hx (he ▸ hx)

theorem injOn_safeDup_iff (names : List String) :
    Set.InjOn safeDup {x | x ∈ names} ↔ ∀ x ∈ names, ∀ y ∈ names, ¬ Suffixed x y := by
  constructor
  · intro hinj x hx y hy hs
    exact hs.ne (hinj hx hy ((safeDup_eq_iff x y).mpr (.inr hs)))
  · intro hclear x hx y hy he
    exact ((safeDup_eq_iff x y).mp he).resolve_right (hclear x hx y hy)

/-- **Which units have injective names.**  The names of the generated C are distinct exactly when no
two methods, instance variables or locals are spelled so that they meet: by letter case, by an
underscore that one class name has and the other's member completes, or by a keyword and its
suffixed form. -/
theorem names_injective_iff (u : CompiledUnit) : u.InjectiveNames ↔ u.Clear := by
  constructor
  · rintro ⟨hmethods, hivars, hlocals⟩
    exact ⟨u.injOn_funcName_iff.mp hmethods, u.injOn_ivarMap_iff.mp hivars,
      fun names hn => (injOn_safeDup_iff names).mp (hlocals names hn)⟩
  · rintro ⟨hmethods, hivars, hlocals⟩
    exact ⟨u.injOn_funcName_iff.mpr hmethods, u.injOn_ivarMap_iff.mpr hivars,
      fun names hn => (injOn_safeDup_iff names).mpr (hlocals names hn)⟩

/-! ### Clashing names -/

/-- A class whose name starts with `F`. -/
def capital (text : String) (h : text.toList.head? = some 'F') : ClassName where
  text := text
  first := by
    obtain ⟨rest, hrest⟩ := List.head?_eq_some_iff.mp h
    exact ⟨'F', rest, hrest, by decide⟩

/-- `Foo#bar_baz` and `Foo_bar#baz`, `@x` of `Foo` and of `FOO`, and the locals `int` and `int_`. -/
def clashing : CompiledUnit where
  name := "demo"
  parent _ := ""
  methods := [⟨some (capital "Foo" rfl), "bar_baz", by decide⟩,
    ⟨some (capital "Foo_bar" rfl), "baz", by decide⟩]
  ivars := [⟨some (capital "Foo" rfl), "x"⟩, ⟨some (capital "FOO" rfl), "x"⟩]
  locals := [["int", "int_"]]

/-- Each of the three kinds of names clashes in `clashing`. -/
theorem clashing_names :
    clashing.methods.map clashing.funcName = ["foo_bar_baz", "foo_bar_baz"] ∧
      clashing.ivars.map clashing.ivarMap = ["foo_at_x", "foo_at_x"] ∧
      clashing.locals.map (·.map safeDup) = [["int_", "int_"]] ∧
      ¬ Set.InjOn clashing.funcName {me | me ∈ clashing.methods} ∧
      ¬ Set.InjOn clashing.ivarMap {v | v ∈ clashing.ivars} ∧
      ¬ ∀ names ∈ clashing.locals, Set.InjOn safeDup {x | x ∈ names} := by
  have hmethods : clashing.methods.map clashing.funcName = ["foo_bar_baz", "foo_bar_baz"] := by
    decide +kernel
  have hivars : clashing.ivars.map clashing.ivarMap = ["foo_at_x", "foo_at_x"] := by
    decide +kernel
  have hlocals : clashing.locals.map (·.map safeDup) = [["int_", "int_"]] := by decide +kernel
  refine ⟨hmethods, hivars, hlocals, ?_, ?_, ?_⟩
  · intro hinj
    have he := hinj (List.mem_cons_self ..) (List.mem_cons_of_mem _ (List.mem_cons_self ..))
      ((List.cons.inj hmethods).1.trans (List.cons.inj (List.cons.inj hmethods).2).1.symm)
    exact absurd (congrArg MethodName.name he) (by decide)
  · intro hinj
    have he := hinj (List.mem_cons_self ..) (List.mem_cons_of_mem _ (List.mem_cons_self ..))
      ((List.cons.inj hivars).1.trans (List.cons.inj (List.cons.inj hivars).2).1.symm)
    have htext := congrArg (fun v : Ivar => v.cls.map ClassName.text) he
    exact absurd htext (by decide)
  · intro hinj
    have he := hinj _ (List.mem_cons_self ..) (List.mem_cons_self ..)
      (List.mem_cons_of_mem _ (List.mem_cons_self ..)) (by decide +kernel)
    exact absurd he (by decide)

end SpinelEbpf.Codegen.Naming

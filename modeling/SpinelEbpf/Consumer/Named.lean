import Mathlib

/-!
# Consumer — named events

`emit :n, v` and `on_emit :n do |v|` are rewritten line by line (`transformNamed`): the emit becomes
a record of the pair ring with the name's tag in its first field, the block becomes a method, and a
generated driver drains the ring and calls the methods whose tag matches.

* `defineAll_spec`: Ruby keeps the last definition of a method.
* `passed_eq`: what a drained record passes to a block. The tags have to be equal and no later block
  may carry the same name.
* `named_delivered_iff`: the emissions of a run with any number of drains reach their own blocks,
  and only them, exactly when no name in use has two blocks, no other block's name shares its tag,
  and an emission that has a block got room in the ring and is among the first 4096 of its drain.
-/

namespace SpinelEbpf.Consumer

/-! ### The rewriting -/

/-- A source line as the two patterns see it. A name is a word of ASCII letters, digits and
underscores. -/
inductive Line
  | onEmitNamed (name param : String)
  | emitNamed (name expr : String)
  | other
  deriving DecidableEq, Repr

/-- The tag of a name: 32-bit FNV-1a, mapped to a positive `int`. -/
def nameTag (name : String) : Nat :=
  name.toList.foldl (fun h c => (h ^^^ c.toNat) * 16777619 % 2 ^ 32) 2166136261 % 0x7FF00000
    + 0x10000

/-- One line of the scan for names: the first block of a name enters it with its parameter. -/
def nameStep (h : List (String × String)) : Line → List (String × String)
  | .onEmitNamed n p => if n ∈ h.map Prod.fst then h else h ++ [(n, p)]
  | _ => h

/-- The named consumer sites, in the order of their first block. -/
def named (source : List Line) : List (String × String) := source.foldl nameStep []

/-- A line of the rewritten program. -/
inductive OutLine
  | defMethod (method param : String)
  | emitPair (tag : Nat) (expr : String)
  | other
  deriving DecidableEq, Repr

/-- The method a block of that name becomes. -/
def methodName (name : String) : String := "__spnl_named_" ++ name

def transformLine : Line → OutLine
  | .onEmitNamed n p => .defMethod (methodName n) p
  | .emitNamed n e => .emitPair (nameTag n) e
  | .other => .other

/-- The rewritten program: its lines, and the driver's `method(v) if tag == …` lines. -/
structure Output where
  lines : List OutLine
  dispatch : List (String × Nat)
  deriving DecidableEq, Repr

def transformNamed (source : List Line) : Output where
  lines := source.map transformLine
  dispatch := (named source).map fun d => (methodName d.1, nameTag d.1)

/-! ### Running the rewritten program -/

/-- The methods after one more line: a definition replaces an earlier one of the same name. A method
is known by the line that defines it. -/
def define (methods : String → Option Nat) (i : Nat) : OutLine → String → Option Nat
  | .defMethod m _ => Function.update methods m (some i)
  | _ => methods

def defineAll (methods : String → Option Nat) (i : Nat) : List OutLine → String → Option Nat
  | [] => methods
  | l :: rest => defineAll (define methods i l) (i + 1) rest

/-- A record of the pair ring, two signed 64-bit fields. -/
structure Pair where
  a : Int
  b : Int
  deriving DecidableEq, Repr

/-- One execution of an emit line of the source, with the value its expression had. -/
structure Emission (source : List Line) where
  site : Nat
  name : String
  expr : String
  value : Int
  /-- `bpf_ringbuf_reserve` found room for the record. -/
  reserved : Bool
  isEmit : source[site]? = some (.emitNamed name expr)

/-- The record an emission writes when the rewritten program runs. -/
def emitted {source : List Line} (out : Output) (e : Emission source) : Option Pair :=
  if e.reserved then
    match out.lines[e.site]? with
    | some (.emitPair tag _) => some ⟨tag, e.value⟩
    | _ => none
  else none

/-- The conversion of the getters' result to `int`. -/
def toInt (x : Int) : Int := x.bmod (2 ^ 32)

/-- The capacity of the static arrays a drain fills. -/
def drainCapacity : Nat := 4096

/-- What one drain keeps: the callback ignores the records that find the arrays full. -/
def drained (waiting : List Pair) : List Pair := waiting.take drainCapacity

/-- The driver's body for one record: the calls it makes, a defining line and the value. -/
def dispatchPair (out : Output) (r : Pair) : List (Nat × Int) :=
  out.dispatch.flatMap fun d =>
    if toInt r.a = d.2 then
      match defineAll (fun _ => none) 0 out.lines d.1 with
      | some i => [(i, toInt r.b)]
      | none => []
    else []

/-- The values the block on line `b` gets from the record at position `k` of one drain. -/
def passed (out : Output) (waiting : List Pair) (k b : Nat) : List Int :=
  match (drained waiting)[k]? with
  | some r => ((dispatchPair out r).filter (·.1 == b)).map Prod.snd
  | none => []

/-- How many records are in the ring before that of the emission at position `k`. -/
def place {source : List Line} (out : Output) (es : List (Emission source)) (k : Nat) : Nat :=
  ((es.take k).filterMap (emitted out)).length

/-- The values the block on line `b` gets from the emission at position `k` of those since the last
drain. -/
def received {source : List Line} (out : Output) (es : List (Emission source)) (k b : Nat) :
    List Int :=
  match es[k]?.bind (emitted out) with
  | some _ => passed out (es.filterMap (emitted out)) (place out es k) b
  | none => []

/-! ### What is asked of it -/

/-- A value the getters' `int` can carry. -/
def InRange (v : Int) : Prop := -2 ^ 31 ≤ v ∧ v < 2 ^ 31

/-- Every emitted value in range is passed exactly once to each block of its name and to no other
block.  The emissions of a run are given by drain: a drain empties the ring, so it finds the records
of the emissions since the one before. -/
def Delivered (source : List Line) (drains : List (List (Emission source))) : Prop :=
  ∀ es ∈ drains, ∀ k e, es[k]? = some e → InRange e.value →
    ∀ b n p, source[b]? = some (.onEmitNamed n p) →
      received (transformNamed source) es k b = if n = e.name then [e.value] else []

/-- The name has at most one block. -/
def SingleBlock (source : List Line) (name : String) : Prop :=
  ∀ (b b' : Nat) (p p' : String), source[b]? = some (.onEmitNamed name p) →
    source[b']? = some (.onEmitNamed name p') → b = b'

/-- No block of another name shares the name's tag. -/
def OwnTag (source : List Line) (name : String) : Prop :=
  ∀ n p, Line.onEmitNamed n p ∈ source → nameTag n = nameTag name → n = name

/-! ### The methods -/

/-- Line `b` is the last that defines the method. -/
def IsLast (lines : List OutLine) (m : String) (b : Nat) : Prop :=
  (∃ p, lines[b]? = some (.defMethod m p)) ∧
    ∀ b' p, lines[b']? = some (.defMethod m p) → b' ≤ b

variable {b k : Nat} {source : List Line} {p n : String}

theorem IsLast.cons {lines : List OutLine} {m : String} (h : IsLast lines m b) (l : OutLine) :
    IsLast (l :: lines) m (b + 1) := by
  obtain ⟨⟨p, hp⟩, hlast⟩ := h
  refine ⟨⟨p, by simpa using hp⟩, fun b' p' hb' => ?_⟩
  cases b' with
  | zero => omega
  | succ b' =>
      rw [List.getElem?_cons_succ] at hb'
      have := hlast b' p' hb'
      omega

theorem IsLast.eq {lines : List OutLine} {m : String} {b' : Nat} (h : IsLast lines m b)
    (h' : IsLast lines m b') : b = b' := by
  obtain ⟨⟨p, hp⟩, hlast⟩ := h
  obtain ⟨⟨p', hp'⟩, hlast'⟩ := h'
  exact Nat.le_antisymm (hlast' b p hp) (hlast b' p' hp')

/-- Ruby keeps the last definition of a method, and without one the method is what it was. -/
theorem defineAll_spec (lines : List OutLine) (m : String) :
    ∀ (methods : String → Option Nat) (i : Nat),
      (defineAll methods i lines m = methods m ∧ ∀ p, .defMethod m p ∉ lines) ∨
      ∃ b, defineAll methods i lines m = some (i + b) ∧ IsLast lines m b := by
  induction lines with
  | nil => exact fun methods i => .inl ⟨rfl, fun _ => List.not_mem_nil⟩
  | cons l lines ih =>
      intro methods i
      rcases ih (define methods i l) (i + 1) with ⟨heq, hnone⟩ | ⟨b, heq, hlast⟩
      · by_cases hl : ∃ p, l = .defMethod m p
        · obtain ⟨p, rfl⟩ := hl
          refine .inr ⟨0, ?_, ⟨p, rfl⟩, fun b' p' hb' => ?_⟩
          · rw [defineAll, heq, define, Function.update_self, Nat.add_zero]
          · cases b' with
            | zero => exact Nat.le_refl 0
            | succ b' =>
                rw [List.getElem?_cons_succ] at hb'
                exact absurd (List.mem_of_getElem? hb') (hnone p')
        · refine .inl ⟨?_, fun p hmem => ?_⟩
          · rw [defineAll, heq]
            cases l with
            | defMethod m' p' =>
                exact Function.update_of_ne (fun h => hl ⟨p', by rw [h]⟩) _ _
            | emitPair tag e => rfl
            | other => rfl
          · rcases List.mem_cons.mp hmem with h | h
            · exact hl ⟨p, h.symm⟩
            · exact hnone p h
      · refine .inr ⟨b + 1, ?_, hlast.cons l⟩
        rw [defineAll, heq]
        congr 1
        omega

/-- The methods of a program, by the last line that defines them. -/
theorem defineAll_eq_some_iff (lines : List OutLine) (m : String) (b : Nat) :
    defineAll (fun _ => none) 0 lines m = some b ↔ IsLast lines m b := by
  rcases defineAll_spec lines m (fun _ => none) 0 with ⟨heq, hnone⟩ | ⟨b', heq, hlast⟩
  · rw [heq]
    constructor
    · intro h
      nomatch h
    · rintro ⟨⟨p, hp⟩, -⟩
      exact absurd (List.mem_of_getElem? hp) (hnone p)
  · rw [heq, Nat.zero_add, Option.some.injEq]
    exact ⟨fun h => h ▸ hlast, fun h => hlast.eq h⟩

/-! ### The names -/

theorem mem_nameStep (h : List (String × String)) (l : Line) (n : String) :
    n ∈ (nameStep h l).map Prod.fst ↔
      n ∈ h.map Prod.fst ∨ ∃ p, Line.onEmitNamed n p = l := by
  cases l with
  | onEmitNamed n' p =>
      by_cases hn' : n' ∈ h.map Prod.fst
      · rw [nameStep, if_pos hn']
        refine ⟨.inl, ?_⟩
        rintro (hmem | ⟨p', heq⟩)
        · exact hmem
        · cases heq
          exact hn'
      · simp [nameStep, if_neg hn']
  | emitNamed n' e => simp [nameStep]
  | other => simp [nameStep]

theorem nodup_nameStep {h : List (String × String)} (hnodup : (h.map Prod.fst).Nodup) (l : Line) :
    ((nameStep h l).map Prod.fst).Nodup := by
  cases l with
  | onEmitNamed n' p =>
      by_cases hn' : n' ∈ h.map Prod.fst
      · rwa [nameStep, if_pos hn']
      · rw [nameStep, if_neg hn', List.map_append]
        exact hnodup.append (List.nodup_singleton n') (by simpa using hn')
  | emitNamed n' e => exact hnodup
  | other => exact hnodup

/-- A name is listed when some line opens a block of that name. -/
theorem mem_named (source : List Line) (n : String) :
    n ∈ (named source).map Prod.fst ↔ ∃ p, Line.onEmitNamed n p ∈ source := by
  have hfold : ∀ h : List (String × String), n ∈ (source.foldl nameStep h).map Prod.fst ↔
      n ∈ h.map Prod.fst ∨ ∃ p, Line.onEmitNamed n p ∈ source := by
    induction source with
    | nil => simp
    | cons l source ih =>
        intro h
        rw [List.foldl_cons, ih, mem_nameStep, or_assoc, ← exists_or]
        simp only [List.mem_cons]
  simpa [named] using hfold []

/-- No name is listed twice. -/
theorem nodup_named (source : List Line) : ((named source).map Prod.fst).Nodup := by
  have hfold : ∀ h : List (String × String), (h.map Prod.fst).Nodup →
      ((source.foldl nameStep h).map Prod.fst).Nodup := by
    induction source with
    | nil => exact fun h hnodup => hnodup
    | cons l source ih => exact fun h hnodup => ih _ (nodup_nameStep hnodup l)
  exact hfold [] List.nodup_nil

/-! ### What one record passes on -/

theorem methodName_injective : Function.Injective methodName := by
  intro n n' h
  exact (String.append_right_inj _).mp h

/-- In a list without repetitions the one entry that yields anything yields it all. -/
theorem flatMap_eq_of_mem {α β : Type} {l : List α} (hnodup : l.Nodup) {a : α} (ha : a ∈ l)
    {f : α → List β} (hf : ∀ x ∈ l, x ≠ a → f x = []) : l.flatMap f = f a := by
  obtain ⟨s, t, rfl⟩ := List.append_of_mem ha
  have hs : ∀ x ∈ s, f x = [] := fun x hx =>
    hf x (List.mem_append_left _ hx) fun h =>
      (List.nodup_append.mp hnodup).2.2 x hx a List.mem_cons_self h
  have ht : ∀ x ∈ t, f x = [] := fun x hx =>
    hf x (List.mem_append_right _ (List.mem_cons_of_mem _ hx)) fun h =>
      (List.nodup_cons.mp (List.nodup_append.mp hnodup).2.1).1 (h ▸ hx)
  rw [List.flatMap_append, List.flatMap_cons, List.flatMap_eq_nil_iff.mpr hs,
    List.flatMap_eq_nil_iff.mpr ht, List.append_nil, List.nil_append]

/-- A block's line in the rewritten program. -/
theorem getElem?_lines_of_block (hb : source[b]? = some (.onEmitNamed n p)) :
    (transformNamed source).lines[b]? = some (.defMethod (methodName n) p) := by
  show (source.map transformLine)[b]? = _
  rw [List.getElem?_map, hb]
  rfl

/-- The lines that define a block's method are the blocks of that name. -/
theorem block_of_getElem?_lines
    (hb : (transformNamed source).lines[b]? = some (.defMethod (methodName n) p)) :
    source[b]? = some (.onEmitNamed n p) := by
  have hmap : source[b]?.map transformLine = some (.defMethod (methodName n) p) := by
    rw [← hb]
    exact List.getElem?_map.symm
  obtain ⟨l, hl, heq⟩ := Option.map_eq_some_iff.mp hmap
  rw [hl]
  cases l with
  | onEmitNamed n' p' =>
      simp only [transformLine, OutLine.defMethod.injEq] at heq
      rw [methodName_injective heq.1, heq.2]
  | emitNamed n' e => nomatch heq
  | other => nomatch heq

/-- The driver's calls for one name. -/
def callsFor (out : Output) (r : Pair) (n : String) : List (Nat × Int) :=
  if toInt r.a = nameTag n then
    match defineAll (fun _ => none) 0 out.lines (methodName n) with
    | some i => [(i, toInt r.b)]
    | none => []
  else []

theorem dispatchPair_eq (source : List Line) (r : Pair) :
    dispatchPair (transformNamed source) r =
      ((named source).map Prod.fst).flatMap (callsFor (transformNamed source) r) := by
  show ((named source).map fun d => (methodName d.1, nameTag d.1)).flatMap _ = _
  rw [List.flatMap_map, List.flatMap_map]
  rfl

/-- The calls for one name go to the last block of that name. -/
theorem mem_callsFor {r : Pair} {c : Nat × Int} (hc : c ∈ callsFor (transformNamed source) r n) :
    ∃ p, source[c.1]? = some (.onEmitNamed n p) := by
  rw [callsFor] at hc
  split at hc
  · split at hc
    · rename_i i hi
      obtain ⟨⟨p, hp⟩, -⟩ := (defineAll_eq_some_iff _ _ _).mp hi
      rw [List.mem_singleton.mp hc]
      exact ⟨p, block_of_getElem?_lines hp⟩
    · exact absurd hc List.not_mem_nil
  · exact absurd hc List.not_mem_nil

/-- What a drained record passes to a block: its value, when the tags are equal and the block is the
last of its name. -/
theorem passed_eq {waiting : List Pair} {r : Pair} (hr : (drained waiting)[k]? = some r)
    (hb : source[b]? = some (.onEmitNamed n p)) :
    passed (transformNamed source) waiting k b =
      if toInt r.a = nameTag n ∧
          defineAll (fun _ => none) 0 (transformNamed source).lines (methodName n) = some b then
        [toInt r.b]
      else [] := by
  have hmem : n ∈ (named source).map Prod.fst := (mem_named source n).mpr ⟨p, List.mem_of_getElem? hb⟩
  have honly : ((dispatchPair (transformNamed source) r).filter (·.1 == b)) =
      (callsFor (transformNamed source) r n).filter (·.1 == b) := by
    rw [dispatchPair_eq, List.filter_flatMap]
    refine flatMap_eq_of_mem (nodup_named source) hmem fun n' _ hne => ?_
    refine List.filter_eq_nil_iff.mpr fun c hc hcb => hne ?_
    obtain ⟨p', hp'⟩ := mem_callsFor hc
    rw [beq_iff_eq.mp hcb, hb] at hp'
    cases hp'
    rfl
  rw [passed, hr]
  simp only [honly, callsFor]
  by_cases htag : toInt r.a = nameTag n
  · cases hdef : defineAll (fun _ => none) 0 (transformNamed source).lines (methodName n) with
    | none => simp [htag]
    | some i =>
        by_cases hib : i = b
        · simp [htag, hib]
        · simp [htag, hib]
  · simp [htag]

/-- A record that found the arrays full is passed to nobody. -/
theorem passed_eq_nil {out : Output} {waiting : List Pair} (hk : drainCapacity ≤ k) (b : Nat) :
    passed out waiting k b = [] := by
  have hnone : (drained waiting)[k]? = none :=
    List.getElem?_eq_none (Nat.le_trans (List.length_take_le _ _) hk)
  rw [passed, hnone]

/-! ### Delivery -/

variable {e : Emission source} {es : List (Emission source)}

theorem emitted_eq (h : e.reserved = true) :
    emitted (transformNamed source) e = some ⟨nameTag e.name, e.value⟩ := by
  have hline : (transformNamed source).lines[e.site]? = some (.emitPair (nameTag e.name) e.expr) := by
    show (source.map transformLine)[e.site]? = _
    rw [List.getElem?_map, e.isEmit]
    rfl
  rw [emitted, if_pos h, hline]

/-- What an emission passes to a block, by its record. -/
theorem received_eq (he : es[k]? = some e)
    (b : Nat) :
    received (transformNamed source) es k b =
      if e.reserved then passed (transformNamed source)
        (es.filterMap (emitted (transformNamed source))) (place (transformNamed source) es k) b
      else [] := by
  rw [received, he, Option.bind_some]
  cases h : e.reserved with
  | true => rw [emitted_eq h]; rfl
  | false => rw [emitted, h]; rfl

/-- The record of an emission that is drained. -/
theorem getElem?_drained (he : es[k]? = some e)
    (hreserved : e.reserved = true) (hk : place (transformNamed source) es k < drainCapacity) :
    (drained (es.filterMap (emitted (transformNamed source))))[place (transformNamed source) es k]? =
      some ⟨nameTag e.name, e.value⟩ := by
  obtain ⟨hlt, hget⟩ := List.getElem?_eq_some_iff.mp he
  rw [drained, List.getElem?_take_of_lt hk]
  nth_rewrite 1 [← List.take_append_drop k es]
  rw [List.filterMap_append, place, List.getElem?_append_right (Nat.le_refl _), Nat.sub_self,
    List.drop_eq_getElem_cons hlt, hget, List.filterMap_cons_some (emitted_eq hreserved)]
  rfl

theorem nameTag_lt (name : String) : nameTag name < 2 ^ 31 := by
  unfold nameTag
  have := Nat.mod_lt (name.toList.foldl (fun h c => (h ^^^ c.toNat) * 16777619 % 2 ^ 32) 2166136261)
    (show 0 < 0x7FF00000 by decide)
  omega

/-- The getters carry a value in range. -/
theorem toInt_eq {v : Int} (hv : InRange v) : toInt v = v := by
  obtain ⟨hlo, hhi⟩ := hv
  exact Int.bmod_eq_of_le_mul_two (by omega) (by omega)

/-- The getters carry every tag. -/
theorem toInt_nameTag (name : String) : toInt (nameTag name) = nameTag name := by
  have := nameTag_lt name
  exact toInt_eq ⟨by omega, by omega⟩

/-- A name with a block has a last one, and that is its method. -/
theorem exists_method (hmem : Line.onEmitNamed n p ∈ source) :
    ∃ b p', source[b]? = some (.onEmitNamed n p') ∧
      defineAll (fun _ => none) 0 (transformNamed source).lines (methodName n) = some b := by
  obtain ⟨i, hi⟩ := List.getElem?_of_mem hmem
  rcases defineAll_spec (transformNamed source).lines (methodName n) (fun _ => none) 0 with
    ⟨-, hnone⟩ | ⟨b, heq, hlast⟩
  · exact absurd (List.mem_of_getElem? (getElem?_lines_of_block hi)) (hnone p)
  · obtain ⟨⟨p', hp'⟩, -⟩ := hlast
    exact ⟨b, p', block_of_getElem?_lines hp', by rw [heq, Nat.zero_add]⟩

/-- The only block of a name is its method. -/
theorem method_eq_of_single (hsingle : SingleBlock source n)
    (hb : source[b]? = some (.onEmitNamed n p)) :
    defineAll (fun _ => none) 0 (transformNamed source).lines (methodName n) = some b := by
  obtain ⟨b', p', hb', hmethod⟩ := exists_method (List.mem_of_getElem? hb)
  rw [hmethod, hsingle b' b p' p hb' hb]

/-- What a drained emission passes to a block. -/
theorem received_drained (he : es[k]? = some e)
    (hv : InRange e.value) (hreserved : e.reserved = true)
    (hk : place (transformNamed source) es k < drainCapacity)
    (hb : source[b]? = some (.onEmitNamed n p)) :
    received (transformNamed source) es k b =
      if nameTag e.name = nameTag n ∧
          defineAll (fun _ => none) 0 (transformNamed source).lines (methodName n) = some b then
        [e.value]
      else [] := by
  rw [received_eq he, if_pos hreserved, passed_eq (getElem?_drained he hreserved hk) hb,
    toInt_nameTag, toInt_eq hv]
  simp only [Nat.cast_inj]

/-- The record of the emission at position `k` got room in the ring and in the arrays. -/
def Arrives {source : List Line} (es : List (Emission source)) (k : Nat) (e : Emission source) :
    Prop :=
  e.reserved = true ∧ place (transformNamed source) es k < drainCapacity

/-- A record that does not arrive is passed to nobody. -/
theorem received_eq_nil (he : es[k]? = some e)
    (h : ¬ Arrives es k e) (b : Nat) :
    received (transformNamed source) es k b = [] := by
  rw [received_eq he]
  split
  · rename_i hreserved
    exact passed_eq_nil (Nat.le_of_not_lt fun hk => h ⟨hreserved, hk⟩) b
  · rfl

/-- **Named events reach their own blocks exactly under three conditions.** For every emission of
the run: its name has at most one block, its record arrives if it has a block, and no other block's
name has its tag if it arrives. -/
theorem named_delivered_iff (source : List Line) (drains : List (List (Emission source))) :
    Delivered source drains ↔
      ∀ es ∈ drains, ∀ k e, es[k]? = some e → InRange e.value →
        SingleBlock source e.name ∧
        ((∃ p, Line.onEmitNamed e.name p ∈ source) → Arrives es k e) ∧
        (Arrives es k e → OwnTag source e.name) := by
  constructor
  · intro h es hes k e he hv
    have harrives : (∃ p, Line.onEmitNamed e.name p ∈ source) → Arrives es k e := by
      rintro ⟨p, hp⟩
      obtain ⟨b, hb⟩ := List.getElem?_of_mem hp
      have hreceived := h es hes k e he hv b e.name p hb
      by_contra hlost
      rw [received_eq_nil he hlost, if_pos rfl] at hreceived
      nomatch hreceived
    refine ⟨fun b b' p p' hb hb' => ?_, harrives, fun ⟨hreserved, hk⟩ n p hmem htag => ?_⟩
    · obtain ⟨hreserved, hk⟩ := harrives ⟨p, List.mem_of_getElem? hb⟩
      -- either block got the value, so either is the method
      have hmethod : ∀ {b p}, source[b]? = some (.onEmitNamed e.name p) →
          defineAll (fun _ => none) 0 (transformNamed source).lines (methodName e.name) =
            some b := by
        intro b p hb
        have hreceived := h es hes k e he hv b e.name p hb
        rw [received_drained he hv hreserved hk hb, if_pos rfl] at hreceived
        by_contra hne
        rw [if_neg fun hand => hne hand.2] at hreceived
        nomatch hreceived
      exact Option.some.inj ((hmethod hb).symm.trans (hmethod hb'))
    · by_contra hne
      obtain ⟨b, p', hb, hmethod⟩ := exists_method hmem
      have hreceived := h es hes k e he hv b n p' hb
      rw [received_drained he hv hreserved hk hb, if_neg hne,
        if_pos ⟨htag.symm, hmethod⟩] at hreceived
      nomatch hreceived
  · intro h es hes k e he hv b n p hb
    obtain ⟨hsingle, harrives, htag⟩ := h es hes k e he hv
    by_cases hn : n = e.name
    · subst hn
      obtain ⟨hreserved, hk⟩ := harrives ⟨p, List.mem_of_getElem? hb⟩
      rw [received_drained he hv hreserved hk hb, if_pos rfl,
        if_pos ⟨rfl, method_eq_of_single hsingle hb⟩]
    · rw [if_neg hn]
      by_cases hk : Arrives es k e
      · rw [received_drained he hv hk.1 hk.2 hb, if_neg]
        exact fun hand => hn (htag hk n p (List.mem_of_getElem? hb) hand.1.symm)
      · exact received_eq_nil he hk b

/-- Two blocks of one name: the value reaches only the later one. -/
def twoBlocks : List Line :=
  [.onEmitNamed "req" "v", .onEmitNamed "req" "v", .emitNamed "req" "dur"]

/-- Two names of one tag: the value of the one reaches the block of the other as well. -/
def sharedTag : List Line :=
  [.onEmitNamed "req_close" "v", .onEmitNamed "bcaa" "v", .emitNamed "bcaa" "dur"]

theorem not_delivered :
    passed (transformNamed twoBlocks) [⟨nameTag "req", 7⟩] 0 0 = [] ∧
    passed (transformNamed twoBlocks) [⟨nameTag "req", 7⟩] 0 1 = [7] ∧
    ¬ Delivered twoBlocks [[⟨2, "req", "dur", 7, true, rfl⟩]] ∧
    nameTag "req_close" = nameTag "bcaa" ∧
    passed (transformNamed sharedTag) [⟨nameTag "bcaa", 7⟩] 0 0 = [7] ∧
    ¬ Delivered sharedTag [[⟨2, "bcaa", "dur", 7, true, rfl⟩]] := by
  refine ⟨by decide, by decide, fun h => ?_, by decide, by decide, fun h => ?_⟩
  · have := h _ List.mem_cons_self 0 _ rfl (by unfold InRange; decide) 0 "req" "v" rfl
    revert this
    decide
  · have := h _ List.mem_cons_self 0 _ rfl (by unfold InRange; decide) 0 "req_close" "v" rfl
    revert this
    decide

end SpinelEbpf.Consumer

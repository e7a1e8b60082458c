import SpinelEbpf.Partition.Propagate

/-!
# Partition — Tags

`classify` tags every method `:ebpf` or `:native` once the flags have been propagated.  Which
methods end up offloaded is `ebpf_iff`: those that no rule keeps native and that reach no
offending method.

The propagation compares a method with its direct callees only, so methods that call each other
are offloaded together (`mutual_offloaded`).  `offloaded_acyclic_iff` says exactly when the
offloaded methods are on no cycle of the call graph.
-/

namespace SpinelEbpf.Partition

/-- The rules of `decide_tag!` that look at no flag: `<main>`, a synthesized method, a method the
caller forces native. -/
def keptNative (forceNative : Option (List String)) (mi : MethodInfo) : Bool :=
  mi.scope = .main || "__spnl_".toList.isPrefixOf mi.methodName.toList ||
    match forceNative with
    | none       => false
    | some names => names.contains mi.methodName

/-- `decide_tag!`. -/
def decideTag (target : TargetProfile) (forceNative : Option (List String)) (mi : MethodInfo) :
    Tag :=
  if keptNative forceNative mi then .native
  else if mi.flags.impossibleFor target then .native
  else .ebpf

/-- `classify`, from the methods with their own flags on. -/
def classify (target : TargetProfile) (forceNative : Option (List String))
    (methods : List MethodInfo) : List MethodInfo :=
  (List.finRange methods.length).map fun m =>
    let mi := { methods.get m with flags := fixpointPropagate methods target m }
    { mi with tag := some (decideTag target forceNative mi) }

variable {methods : List MethodInfo} {target : TargetProfile} {forceNative : Option (List String)}

/-- The tag of a method after `classify`. -/
def tagOf (target : TargetProfile) (forceNative : Option (List String))
    (methods : List MethodInfo) (m : Method methods) : Option Tag :=
  (classify target forceNative methods)[m.val]?.bind MethodInfo.tag

theorem tagOf_eq (m : Method methods) :
    tagOf target forceNative methods m = some (decideTag target forceNative
      { methods.get m with flags := fixpointPropagate methods target m }) := by
  simp [tagOf, classify]

theorem decideTag_eq_ebpf_iff {mi : MethodInfo} :
    decideTag target forceNative mi = .ebpf ↔
      keptNative forceNative mi = false ∧ mi.flags.impossibleFor target = false := by
  unfold decideTag
  cases keptNative forceNative mi <;> cases mi.flags.impossibleFor target <;> simp

/-- **What is offloaded.**  The methods that no rule keeps native and from which no offending
method can be reached. -/
theorem ebpf_iff (hrec : Flag.usesRecursion ∈ target.fatalFlags)
    (hinh : Flag.inheritsUnsupported ∈ target.fatalFlags) (m : Method methods) :
    tagOf target forceNative methods m = some .ebpf ↔
      keptNative forceNative (methods.get m) = false ∧ ¬ Doomed methods target m := by
  rw [tagOf_eq, Option.some_inj, decideTag_eq_ebpf_iff, ← impossible_iff hrec hinh,
    Bool.not_eq_true]
  exact Iff.rfl

/-- The method is on a cycle of the call graph. -/
def OnCycle (m : Method methods) : Prop := Relation.TransGen (Calls methods) m m

/-- **When the offloaded methods form a DAG**, on Linux: when every method on a cycle is kept
native by name or scope, or reaches a method with a fatal flag of its own or that calls its own
name. -/
theorem offloaded_acyclic_iff (forceNative : Option (List String)) (methods : List MethodInfo) :
    (∀ m : Method methods,
        tagOf linuxEbpf forceNative methods m = some .ebpf → ¬ OnCycle m) ↔
      ∀ m : Method methods, OnCycle m →
        keptNative forceNative (methods.get m) = true ∨
          ∃ c, Relation.ReflTransGen (Calls methods) m c ∧
            ((methods.get c).flags.impossibleFor linuxEbpf = true ∨ Calls methods c c) := by
  have hebpf (m : Method methods) := @ebpf_iff methods linuxEbpf forceNative (by decide)
    (by decide) m
  constructor
  · intro h m hcycle
    by_contra hnot
    rw [not_or, Bool.not_eq_true] at hnot
    exact h m ((hebpf m).mpr hnot) hcycle
  · intro h m htag hcycle
    obtain ⟨hkept, hdoom⟩ := (hebpf m).mp htag
    rcases h m hcycle with hk | hd
    · exact absurd (hkept.symm.trans hk) Bool.false_ne_true
    · exact hdoom hd

/-- `def even(n) … odd(n - 1) … end` and `def odd(n) … even(n - 1) … end`. -/
def evenOdd : List MethodInfo :=
  [⟨.topLevel, "even", { MethodFlags.default with calls := ["odd", "-"] }, none⟩,
   ⟨.topLevel, "odd", { MethodFlags.default with calls := ["even", "-"] }, none⟩]

/-- **Mutual recursion is offloaded.** -/
theorem mutual_offloaded :
    tagOf linuxEbpf none evenOdd ⟨0, by decide⟩ = some .ebpf ∧
      OnCycle (⟨0, by decide⟩ : Method evenOdd) := by
  refine ⟨by decide, ?_⟩
  have hto : Calls evenOdd ⟨0, by decide⟩ ⟨1, by decide⟩ := by decide
  have hback : Calls evenOdd ⟨1, by decide⟩ ⟨0, by decide⟩ := by decide
  exact .tail (.single hto) hback

end SpinelEbpf.Partition

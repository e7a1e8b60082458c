import SpinelEbpf.Partition.Profile
import SpinelEbpf.Support.Sweep

/-!
# Partition — Propagation over the call graph

`fixpoint_propagate` sweeps over the methods and their callees, by bare name, until nothing
changes: a method that calls its own name is recursive, and one that calls an impossible method
inherits that.  A method is its position in the list (`equal?` compares objects); flags are
updated in place, so later visits of a sweep see the earlier ones.

The result does not depend on the order of the visits: a method ends up impossible exactly when
it reaches, by calls, one that was impossible to begin with or that calls its own name
(`impossible_iff`).
-/

namespace SpinelEbpf.Partition

open Function

/-- Where a method was defined. -/
inductive Scope where
  | topLevel
  | cls
  | main
  deriving DecidableEq, Repr

/-- The decision on a method. -/
inductive Tag where
  | ebpf
  | native
  deriving DecidableEq, Repr

/-- `MethodInfo`; `tag` is filled last. -/
structure MethodInfo where
  scope : Scope
  methodName : String
  flags : MethodFlags
  tag : Option Tag

variable (methods : List MethodInfo)

/-- A method of the program, by its position. -/
abbrev Method := Fin methods.length

/-- `build_name_index`: the methods of a name, in order. -/
def buildNameIndex (name : String) : List (Method methods) :=
  (List.finRange methods.length).filter fun j => (methods.get j).methodName = name

/-- The pairs of method and callee a sweep goes through: each method, each name it calls, each
method of that name. -/
def visits : List (Method methods × Method methods) :=
  (List.finRange methods.length).flatMap fun m =>
    (methods.get m).flags.calls.flatMap fun callee =>
      (buildNameIndex methods callee).map fun mi => (m, mi)

/-- The flags of all the methods, as they are during the loop. -/
abbrev FlagTable := Method methods → MethodFlags

variable {methods}

/-- Setting a flag of a method; nothing when it is set. -/
def mark (f : Flag) (m : Method methods) (st : FlagTable methods) : Option (FlagTable methods) :=
  if (st m).get f then none else some (update st m ((st m).raise f))

/-- The innermost body of the loop. -/
def propagate (target : TargetProfile) (v : Method methods × Method methods)
    (st : FlagTable methods) : Option (FlagTable methods) :=
  if v.2 = v.1 then mark .usesRecursion v.1 st
  else if (st v.2).impossibleFor target then mark .inheritsUnsupported v.1 st
  else none

variable (methods)

/-- The flags before the loop. -/
def ownFlags : FlagTable methods := fun m => (methods.get m).flags

/-- `fixpoint_propagate`.  A sweep that changes something sets one of two flags of a method, so
the loop makes at most two sweeps a method and a last one. -/
def fixpointPropagate (target : TargetProfile) : FlagTable methods :=
  Sweep.run (propagate target) (visits methods) (2 * methods.length + 1) (ownFlags methods)

/-! ### The loop ends -/

variable {methods} {f : Flag} {m : Method methods}

/-- The flags of a method the loop has not set yet. -/
def unsetFlags (flags : MethodFlags) : Nat :=
  (if flags.get .usesRecursion then 0 else 1) + (if flags.get .inheritsUnsupported then 0 else 1)

/-- All of them. -/
def unset (st : FlagTable methods) : Nat := ∑ m, unsetFlags (st m)

theorem unsetFlags_le (flags : MethodFlags) : unsetFlags flags ≤ 2 := by
  unfold unsetFlags
  split <;> split <;> omega

theorem unset_le (st : FlagTable methods) : unset st ≤ 2 * methods.length := by
  calc unset st ≤ ∑ _m : Method methods, 2 := Finset.sum_le_sum fun m _ => unsetFlags_le (st m)
    _ = 2 * methods.length := by simp [Nat.mul_comm]

theorem unsetFlags_raise_lt {flags : MethodFlags}
    (hf : f = .usesRecursion ∨ f = .inheritsUnsupported) (h : flags.get f = false) :
    unsetFlags (flags.raise f) < unsetFlags flags := by
  unfold unsetFlags
  rcases hf with rfl | rfl
  · rw [MethodFlags.raise_get_self, MethodFlags.raise_get_of_ne Flag.noConfusion, h]
    simp
  · rw [MethodFlags.raise_get_self, MethodFlags.raise_get_of_ne Flag.noConfusion, h]
    simp

theorem mark_eq_some {st st' : FlagTable methods} (h : mark f m st = some st') :
    (st m).get f = false ∧ st' = update st m ((st m).raise f) := by
  unfold mark at h
  by_cases hf : (st m).get f = true
  · rw [if_pos hf] at h
    nomatch h
  · rw [if_neg hf] at h
    exact ⟨Bool.eq_false_of_not_eq_true hf, (Option.some.inj h).symm⟩

/-- What a visit that changes something does. -/
theorem propagate_eq_some {target : TargetProfile} {v : Method methods × Method methods}
    {st st' : FlagTable methods} (h : propagate target v st = some st') :
    ∃ f, (st v.1).get f = false ∧ st' = update st v.1 ((st v.1).raise f) ∧
      (f = .usesRecursion ∧ v.2 = v.1 ∨
        f = .inheritsUnsupported ∧ v.2 ≠ v.1 ∧ (st v.2).impossibleFor target = true) := by
  unfold propagate at h
  by_cases hself : v.2 = v.1
  · rw [if_pos hself] at h
    exact ⟨_, (mark_eq_some h).1, (mark_eq_some h).2, .inl ⟨rfl, hself⟩⟩
  · rw [if_neg hself] at h
    by_cases himp : (st v.2).impossibleFor target = true
    · rw [if_pos himp] at h
      exact ⟨_, (mark_eq_some h).1, (mark_eq_some h).2, .inr ⟨rfl, hself, himp⟩⟩
    · rw [if_neg himp] at h
      nomatch h

/-- A visit that changes something lowers the number of flags left to set. -/
theorem propagate_lt (target : TargetProfile) (v : Method methods × Method methods)
    (st st' : FlagTable methods) (h : propagate target v st = some st') : unset st' < unset st := by
  obtain ⟨f, hf, rfl, hwhy⟩ := propagate_eq_some h
  have hflag : f = .usesRecursion ∨ f = .inheritsUnsupported := hwhy.imp And.left And.left
  have hlt := unsetFlags_raise_lt hflag hf
  refine Finset.sum_lt_sum (fun m _ => ?_) ⟨v.1, Finset.mem_univ _, ?_⟩
  · by_cases hm : m = v.1
    · rw [hm, update_self]; exact Nat.le_of_lt hlt
    · rw [update_of_ne hm]
  · rw [update_self]; exact hlt

/-- **The loop ends**: at its result, no visit changes anything. -/
theorem fixpointPropagate_stable (target : TargetProfile) :
    Sweep.Stable (propagate target) (visits methods) (fixpointPropagate methods target) :=
  Sweep.run_stable (propagate_lt target) (Nat.lt_succ_of_le (unset_le _))

/-- A loop with no bound on its sweeps computes the same. -/
theorem fixpointPropagate_eq_run (target : TargetProfile) (k : Nat) :
    Sweep.run (propagate target) (visits methods) (2 * methods.length + 1 + k) (ownFlags methods)
      = fixpointPropagate methods target :=
  Sweep.run_add (propagate_lt target) (Nat.lt_succ_of_le (unset_le _)) k

/-! ### What it computes -/

variable (methods)

/-- The call graph: `m` calls a name that `c` has. -/
def Calls (m c : Method methods) : Prop :=
  (methods.get c).methodName ∈ (methods.get m).flags.calls

instance : DecidableRel (Calls methods) := fun m c =>
  inferInstanceAs (Decidable ((methods.get c).methodName ∈ (methods.get m).flags.calls))

/-- Impossible by its own flags, or calling its own name. -/
def Offends (target : TargetProfile) (m : Method methods) : Prop :=
  (methods.get m).flags.impossibleFor target = true ∨ Calls methods m m

/-- An offending method can be reached by calls. -/
def Doomed (target : TargetProfile) (m : Method methods) : Prop :=
  ∃ c, Relation.ReflTransGen (Calls methods) m c ∧ Offends methods target c

variable {methods} {c : Method methods} {target : TargetProfile} {st st' : FlagTable methods}

theorem mem_visits : (m, c) ∈ visits methods ↔ Calls methods m c := by
  constructor
  · intro h
    obtain ⟨m', -, h⟩ := List.mem_flatMap.mp h
    obtain ⟨callee, hcall, h⟩ := List.mem_flatMap.mp h
    obtain ⟨c', hc', heq⟩ := List.mem_map.mp h
    obtain ⟨rfl, rfl⟩ := Prod.mk.inj heq
    have hname := of_decide_eq_true (List.mem_filter.mp hc').2
    rwa [← hname] at hcall
  · intro h
    refine List.mem_flatMap.mpr ⟨m, List.mem_finRange m, ?_⟩
    refine List.mem_flatMap.mpr ⟨_, h, List.mem_map.mpr ⟨c, ?_, rfl⟩⟩
    exact List.mem_filter.mpr ⟨List.mem_finRange c, decide_eq_true rfl⟩

/-- What holds of the flags at every moment of the loop: only the two flags are ever set, and
only for a reason. -/
structure Justified (target : TargetProfile) (st : FlagTable methods) : Prop where
  calls : ∀ m, (st m).calls = (methods.get m).flags.calls
  kept : ∀ m f, (methods.get m).flags.get f = true → (st m).get f = true
  reason : ∀ m f, (st m).get f = true → (methods.get m).flags.get f = true ∨
    f = .usesRecursion ∧ Calls methods m m ∨
    f = .inheritsUnsupported ∧ ∃ c, Calls methods m c ∧ Doomed methods target c

theorem Doomed.of_calls (hcall : Calls methods m c) (h : Doomed methods target c) :
    Doomed methods target m := by
  obtain ⟨k, hreach, hoff⟩ := h
  exact ⟨k, .head hcall hreach, hoff⟩

/-- A method impossible during the loop is one that should be. -/
theorem Justified.doomed (h : Justified target st) (himp : (st m).impossibleFor target = true) :
    Doomed methods target m := by
  rcases MethodFlags.impossibleFor_iff.mp himp with ⟨f, hfatal, hf⟩ | hbad
  · rcases h.reason m f hf with hown | ⟨-, hself⟩ | ⟨-, c, hcall, hdoom⟩
    · exact ⟨m, .refl, .inl (MethodFlags.impossibleFor_iff.mpr (.inl ⟨f, hfatal, hown⟩))⟩
    · exact ⟨m, .refl, .inr hself⟩
    · exact hdoom.of_calls hcall
  · have hown : (methods.get m).flags.unsupportedCallsFor target ≠ [] := by
      rwa [MethodFlags.unsupportedCallsFor, h.calls m] at hbad
    exact ⟨m, .refl, .inl (MethodFlags.impossibleFor_iff.mpr (.inr hown))⟩

/-- A visit keeps it. -/
theorem Justified.propagate (h : Justified target st) {v : Method methods × Method methods}
    (hv : v ∈ visits methods) (hstep : propagate target v st = some st') :
    Justified target st' := by
  obtain ⟨m, c⟩ := v
  have hcall : Calls methods m c := mem_visits.mp hv
  obtain ⟨f, -, rfl, hwhy⟩ := propagate_eq_some hstep
  refine ⟨fun n => ?_, fun n g hg => ?_, fun n g hg => ?_⟩
  · by_cases hn : n = m
    · rw [hn, update_self, MethodFlags.raise_calls, h.calls]
    · rw [update_of_ne hn, h.calls]
  · by_cases hn : n = m
    · subst hn
      rw [update_self]
      exact MethodFlags.raise_get_mono (h.kept n g hg)
    · rw [update_of_ne hn, h.kept n g hg]
  · by_cases hn : n = m
    · subst hn
      rw [update_self] at hg
      by_cases hfg : g = f
      · subst hfg
        rcases hwhy with ⟨hrec, hself⟩ | ⟨hinh, -, himp⟩
        · obtain rfl : c = n := hself
          exact .inr (.inl ⟨hrec, hcall⟩)
        · exact .inr (.inr ⟨hinh, c, hcall, h.doomed himp⟩)
      · rw [MethodFlags.raise_get_of_ne hfg] at hg
        exact h.reason n g hg
    · rw [update_of_ne hn] at hg
      exact h.reason n g hg

/-- The result of the loop is justified. -/
theorem fixpointPropagate_justified (target : TargetProfile) :
    Justified target (fixpointPropagate methods target) :=
  Sweep.run_induct _ ⟨fun _ => rfl, fun _ _ h => h, fun _ _ h => .inl h⟩
    fun _ hv _ _ h hstep => h.propagate hv hstep

theorem get_of_mark_eq_none (h : mark f m st = none) :
    (st m).get f = true := by
  by_contra hf
  rw [mark, if_neg hf] at h
  nomatch h

/-- At the end, a method that calls its own name is marked. -/
theorem usesRecursion_of_calls (h : Calls methods m m) :
    (fixpointPropagate methods target m).get .usesRecursion = true := by
  have hnone := fixpointPropagate_stable target (m, m) (mem_visits.mpr h)
  rw [propagate, if_pos rfl] at hnone
  exact get_of_mark_eq_none hnone

/-- **Recursion.**  A method is marked as recursive when it was or when it calls its own name. -/
theorem usesRecursion_iff (target : TargetProfile) (m : Method methods) :
    (fixpointPropagate methods target m).get .usesRecursion = true ↔
      (methods.get m).flags.get .usesRecursion = true ∨ Calls methods m m := by
  have hj := @fixpointPropagate_justified methods target
  constructor
  · intro h
    rcases hj.reason m _ h with hown | ⟨-, hself⟩ | ⟨hne, -⟩
    · exact .inl hown
    · exact .inr hself
    · nomatch hne
  · rintro (hown | hself)
    · exact hj.kept m _ hown
    · exact usesRecursion_of_calls hself

/-- At the end, impossibility has gone up every call. -/
theorem impossible_of_calls (hrec : Flag.usesRecursion ∈ target.fatalFlags)
    (hinh : Flag.inheritsUnsupported ∈ target.fatalFlags) (hcall : Calls methods m c)
    (himp : (fixpointPropagate methods target c).impossibleFor target = true) :
    (fixpointPropagate methods target m).impossibleFor target = true := by
  refine MethodFlags.impossibleFor_iff.mpr (.inl ?_)
  by_cases hself : c = m
  · exact ⟨_, hrec, usesRecursion_of_calls (hself ▸ hcall)⟩
  · have hnone := fixpointPropagate_stable target (m, c) (mem_visits.mpr hcall)
    rw [propagate, if_neg hself, if_pos himp] at hnone
    exact ⟨_, hinh, get_of_mark_eq_none hnone⟩

/-- **The least closure.**  For a target with both flags fatal, a method ends up impossible when
it reaches an offending one. -/
theorem impossible_iff (hrec : Flag.usesRecursion ∈ target.fatalFlags)
    (hinh : Flag.inheritsUnsupported ∈ target.fatalFlags) (m : Method methods) :
    (fixpointPropagate methods target m).impossibleFor target = true ↔
      Doomed methods target m := by
  have hj := @fixpointPropagate_justified methods target
  refine ⟨hj.doomed, ?_⟩
  rintro ⟨c, hreach, hoff⟩
  -- from the offending method back along the calls
  induction hreach using Relation.ReflTransGen.head_induction_on with
  | refl =>
      rcases hoff with hown | hself
      · exact MethodFlags.impossibleFor_mono (hj.calls c) (hj.kept c) hown
      · exact MethodFlags.impossibleFor_iff.mpr (.inl ⟨_, hrec, usesRecursion_of_calls hself⟩)
  | head hcall _ ih => exact impossible_of_calls hrec hinh hcall ih

end SpinelEbpf.Partition

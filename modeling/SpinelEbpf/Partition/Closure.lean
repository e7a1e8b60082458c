import SpinelEbpf.Partition.Propagate

/-!
# Partition — The least closure

What `fixpoint_propagate` computes, with no order in it.

* `Closed`: flags that contain the methods' own ones and that no visit of the loop would change.
* `fixpointPropagate_least`: the loop's result is the least of them.
* `fixpointPropagate_reorder`: reordering the methods, or the calls of a method, reorders the
  result, since the closed flags of the one list are those of the other.
* `propagation_least_closure`: the loop ends, and its result is the least closure.
-/

namespace SpinelEbpf.Partition

variable {methods methods' : List MethodInfo} {target : TargetProfile}

/-! ### Leastness -/

/-- The flags contain the methods' own ones, the calls are the methods' own, and no visit of the
loop changes anything. -/
structure Closed (target : TargetProfile) (st : FlagTable methods) : Prop where
  calls : ∀ m, (st m).calls = (methods.get m).flags.calls
  kept : ∀ m f, (methods.get m).flags.get f = true → (st m).get f = true
  stable : Sweep.Stable (propagate target) (visits methods) st

theorem fixpointPropagate_closed (target : TargetProfile) :
    Closed target (fixpointPropagate methods target) where
  calls := (fixpointPropagate_justified target).calls
  kept := (fixpointPropagate_justified target).kept
  stable := fixpointPropagate_stable target

/-- What it takes for no visit to change anything. -/
theorem stable_iff {st : FlagTable methods} :
    Sweep.Stable (propagate target) (visits methods) st ↔
      (∀ m, Calls methods m m → (st m).get .usesRecursion = true) ∧
      ∀ m c, Calls methods m c → c ≠ m → (st c).impossibleFor target = true →
        (st m).get .inheritsUnsupported = true := by
  constructor
  · intro h
    refine ⟨fun m hself => ?_, fun m c hcall hne himp => ?_⟩
    · have hnone := h (m, m) (mem_visits.mpr hself)
      rw [propagate, if_pos rfl] at hnone
      exact get_of_mark_eq_none hnone
    · have hnone := h (m, c) (mem_visits.mpr hcall)
      rw [propagate, if_neg hne, if_pos himp] at hnone
      exact get_of_mark_eq_none hnone
  · rintro ⟨hrec, hinh⟩ ⟨m, c⟩ hv
    have hcall := mem_visits.mp hv
    by_cases hself : c = m
    · subst hself
      rw [propagate, if_pos rfl, mark, if_pos (hrec c hcall)]
    · rw [propagate, if_neg hself]
      by_cases himp : (st c).impossibleFor target = true
      · rw [if_pos himp, mark, if_pos (hinh m c hcall hself himp)]
      · rw [if_neg himp]

/-- During the loop no flag is set that closed flags lack. -/
structure Below (st bound : FlagTable methods) : Prop where
  calls : ∀ m, (st m).calls = (bound m).calls
  get : ∀ m f, (st m).get f = true → (bound m).get f = true

/-- A visit keeps the flags below any closed ones. -/
theorem Below.propagate {st st' bound : FlagTable methods} (h : Below st bound)
    (hbound : Sweep.Stable (propagate target) (visits methods) bound)
    {v : Method methods × Method methods} (hv : v ∈ visits methods)
    (hstep : propagate target v st = some st') : Below st' bound := by
  obtain ⟨m, c⟩ := v
  have hcall : Calls methods m c := mem_visits.mp hv
  obtain ⟨hrec, hinh⟩ := stable_iff.mp hbound
  obtain ⟨f, -, rfl, hwhy⟩ := propagate_eq_some hstep
  refine ⟨fun n => ?_, fun n g hg => ?_⟩
  · by_cases hn : n = m
    · rw [hn, Function.update_self, MethodFlags.raise_calls, h.calls]
    · rw [Function.update_of_ne hn, h.calls]
  · by_cases hn : n = m
    · subst hn
      rw [Function.update_self] at hg
      by_cases hfg : g = f
      · subst hfg
        rcases hwhy with ⟨rfl, hself⟩ | ⟨rfl, hne, himp⟩
        · obtain rfl : c = n := hself
          exact hrec c hcall
        · refine hinh n c hcall hne ?_
          exact MethodFlags.impossibleFor_mono (h.calls c).symm (h.get c) himp
      · rw [MethodFlags.raise_get_of_ne hfg] at hg
        exact h.get n g hg
    · rw [Function.update_of_ne hn] at hg
      exact h.get n g hg

/-- **The result is the least of the closed flags.** -/
theorem fixpointPropagate_least {st : FlagTable methods} (h : Closed target st)
    (m : Method methods) {f : Flag} (hf : (fixpointPropagate methods target m).get f = true) :
    (st m).get f = true := by
  have hinit : Below (ownFlags methods) st := ⟨fun m => (h.calls m).symm, h.kept⟩
  have hvisit : ∀ v ∈ visits methods, ∀ s s', Below s st → propagate target v s = some s' →
      Below s' st := fun _ hv _ _ hs hstep => hs.propagate h.stable hv hstep
  have hbelow : Below (fixpointPropagate methods target) st :=
    Sweep.run_induct (P := fun s => Below s st) _ hinit hvisit
  exact hbelow.get m f hf

/-! ### The order makes no difference -/

theorem unsupportedCallsFor_ne_nil_iff {flags : MethodFlags} :
    flags.unsupportedCallsFor target ≠ [] ↔ target.callAllowlist.isNone = false ∧
      ∃ c ∈ flags.calls, (identifierCall c && !target.allowsCall c) = true := by
  unfold MethodFlags.unsupportedCallsFor
  cases target.callAllowlist.isNone with
  | true => simp
  | false =>
      rw [if_neg Bool.false_ne_true, ne_eq, List.eq_nil_iff_forall_not_mem]
      simp only [List.mem_eraseDups, List.mem_filter, true_and, not_forall, not_not]

/-- Impossibility depends on the calls as a set. -/
theorem impossibleFor_congr {a b : MethodFlags} (hget : ∀ f, a.get f = b.get f)
    (hcalls : ∀ c, c ∈ a.calls ↔ c ∈ b.calls) :
    a.impossibleFor target = b.impossibleFor target := by
  rw [Bool.eq_iff_iff, MethodFlags.impossibleFor_iff, MethodFlags.impossibleFor_iff,
    unsupportedCallsFor_ne_nil_iff, unsupportedCallsFor_ne_nil_iff]
  simp only [hget, hcalls]

/-- The same methods in another order, each with its calls in another order. -/
structure Reordering (methods methods' : List MethodInfo) where
  place : Method methods ≃ Method methods'
  name : ∀ m, (methods'.get (place m)).methodName = (methods.get m).methodName
  flags : ∀ m f, (methods'.get (place m)).flags.get f = (methods.get m).flags.get f
  calls : ∀ m, (methods'.get (place m)).flags.calls.Perm (methods.get m).flags.calls

namespace Reordering

def symm (r : Reordering methods methods') : Reordering methods' methods where
  place := r.place.symm
  name m := by rw [← r.name, Equiv.apply_symm_apply]
  flags m f := by rw [← r.flags, Equiv.apply_symm_apply]
  calls m := by
    have h := r.calls (r.place.symm m)
    rw [Equiv.apply_symm_apply] at h
    exact h.symm

variable (r : Reordering methods methods')

theorem calls_iff (m c : Method methods) :
    Calls methods' (r.place m) (r.place c) ↔ Calls methods m c := by
  unfold Calls
  rw [r.name, (r.calls m).mem_iff]

/-- Flags of the reordered methods, read in the order of the first list. -/
def pull (st : FlagTable methods') : FlagTable methods := fun m =>
  ⟨(st (r.place m)).get, (methods.get m).flags.calls⟩

theorem impossibleFor_pull {st : FlagTable methods'} (h : Closed target st) (m : Method methods) :
    (r.pull st m).impossibleFor target = (st (r.place m)).impossibleFor target := by
  refine impossibleFor_congr (fun _ => rfl) fun c => ?_
  rw [h.calls (r.place m), (r.calls m).mem_iff]
  exact Iff.rfl

/-- Closed flags stay closed. -/
theorem closed_pull {st : FlagTable methods'} (h : Closed target st) :
    Closed target (r.pull st) := by
  obtain ⟨hrec, hinh⟩ := stable_iff.mp h.stable
  refine ⟨fun _ => rfl, fun m f hf => ?_, stable_iff.mpr ⟨fun m hself => ?_, ?_⟩⟩
  · exact h.kept (r.place m) f (by rw [r.flags, hf])
  · exact hrec (r.place m) ((r.calls_iff m m).mpr hself)
  · intro m c hcall hne himp
    rw [r.impossibleFor_pull h] at himp
    exact hinh (r.place m) (r.place c) ((r.calls_iff m c).mpr hcall)
      (fun heq => hne (r.place.injective heq)) himp

theorem get_of_get (m : Method methods) {f : Flag}
    (h : (fixpointPropagate methods target m).get f = true) :
    (fixpointPropagate methods' target (r.place m)).get f = true :=
  fixpointPropagate_least (r.closed_pull (fixpointPropagate_closed target)) m h

end Reordering

/-- Reordering the methods and their calls reorders the result. -/
theorem fixpointPropagate_reorder (r : Reordering methods methods') (m : Method methods)
    (f : Flag) :
    (fixpointPropagate methods' target (r.place m)).get f =
      (fixpointPropagate methods target m).get f := by
  rw [Bool.eq_iff_iff]
  refine ⟨fun h => ?_, r.get_of_get m⟩
  have hback := r.symm.get_of_get (r.place m) h
  have hplace : r.symm.place (r.place m) = m := r.place.symm_apply_apply m
  rwa [hplace] at hback

/-- **Propagation computes the least closure.** For either target and every list of methods: the
loop ends, at flags no further sweep changes; they are the least closed ones; no order of the
methods or of their calls makes a difference; a method is recursive when it was or when it calls its
own name; and it is impossible when some method it reaches by calls was impossible by its own flags
or calls its own name. -/
theorem propagation_least_closure (target : TargetProfile)
    (htarget : target = linuxEbpf ∨ target = amp) (methods : List MethodInfo) :
    (Sweep.Stable (propagate target) (visits methods) (fixpointPropagate methods target) ∧
      ∀ k, Sweep.run (propagate target) (visits methods) (2 * methods.length + 1 + k)
        (ownFlags methods) = fixpointPropagate methods target) ∧
    (∀ st : FlagTable methods, Closed target st → ∀ m f,
      (fixpointPropagate methods target m).get f = true → (st m).get f = true) ∧
    (∀ (methods' : List MethodInfo) (r : Reordering methods methods') (m : Method methods) (f : Flag),
      (fixpointPropagate methods' target (r.place m)).get f =
        (fixpointPropagate methods target m).get f) ∧
    (∀ m : Method methods, (fixpointPropagate methods target m).get .usesRecursion = true ↔
      (methods.get m).flags.get .usesRecursion = true ∨ Calls methods m m) ∧
    ∀ m : Method methods, (fixpointPropagate methods target m).impossibleFor target = true ↔
      ∃ c, Relation.ReflTransGen (Calls methods) m c ∧
        ((methods.get c).flags.impossibleFor target = true ∨ Calls methods c c) := by
  have hfatal : Flag.usesRecursion ∈ target.fatalFlags ∧
      Flag.inheritsUnsupported ∈ target.fatalFlags := by
    rcases htarget with rfl | rfl
    · decide
    · decide
  refine ⟨⟨fixpointPropagate_stable target, fixpointPropagate_eq_run target⟩, ?_, ?_, ?_, ?_⟩
  · exact fun st hst m f hf => fixpointPropagate_least hst m hf
  · exact fun methods' r m f => fixpointPropagate_reorder r m f
  · exact usesRecursion_iff target
  · exact impossible_iff hfatal.1 hfatal.2

/-- `def tick … spin … end` and `def spin … spin … end`. -/
def tickSpin : List MethodInfo :=
  [⟨.topLevel, "tick", { MethodFlags.default with calls := ["spin"] }, none⟩,
   ⟨.topLevel, "spin", { MethodFlags.default with calls := ["spin", "-"] }, none⟩]

theorem propagation_tickSpin :
    (fixpointPropagate tickSpin amp ⟨0, by decide⟩).impossibleFor amp = true := by
  refine ((propagation_least_closure amp (.inr rfl) tickSpin).2.2.2.2 ⟨0, by decide⟩).mpr ?_
  have hcall : Calls tickSpin ⟨0, by decide⟩ ⟨1, by decide⟩ := by decide
  have hself : Calls tickSpin ⟨1, by decide⟩ ⟨1, by decide⟩ := by decide
  exact ⟨⟨1, by decide⟩, .single hcall, .inr hself⟩

end SpinelEbpf.Partition

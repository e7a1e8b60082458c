import Mathlib

/-!
# Partition — Flags and target profiles

What the analysis records of a method (`MethodFlags`) and what a compilation target makes of it
(`TargetProfile`): a profile names the flags that are fatal and, for a restricted target, the
calls it has at all.  A method that is impossible for a target is always told why
(`impossibleFor_iff_reasonsFor`).
-/

namespace SpinelEbpf.Partition

/-- The boolean members of `MethodFlags`. -/
inductive Flag where
  | usesFloat
  | usesRegex
  | usesIo
  | usesThread
  | usesFiber
  | usesClosure
  | usesRecursion
  | usesBignum
  | usesUnboundedLoop
  | usesDynamicStringConcat
  | usesDynamicArrayGrow
  | usesUnsupportedType
  | inheritsUnsupported
  deriving DecidableEq, Repr

/-- `MethodFlags`: a member is read by its symbol. -/
structure MethodFlags where
  get : Flag → Bool
  calls : List String

/-- `MethodFlags.default`. -/
def MethodFlags.default : MethodFlags := ⟨fun _ => false, []⟩

/-- `flags.f = true`. -/
def MethodFlags.raise (flags : MethodFlags) (f : Flag) : MethodFlags :=
  { flags with get := Function.update flags.get f true }

/-- `TargetProfile`. -/
structure TargetProfile where
  name : String
  fatalFlags : List Flag
  callAllowlist : Option (List String)
  supportedSummary : String

/-- `identifier_call?`: the name starts with a letter or an underscore. -/
def identifierCall (name : String) : Bool :=
  match name.toList with
  | []     => false
  | c :: _ => c.isAlpha || c = '_'

/-- `allows_call?`. -/
def TargetProfile.allowsCall (profile : TargetProfile) (name : String) : Bool :=
  match profile.callAllowlist with
  | none       => true
  | some names => !identifierCall name || names.contains name

/-- `FLAG_REASONS`. -/
def flagReasons : List (Flag × String) :=
  [(.usesFloat,           "uses Float arithmetic (no FPU in BPF)"),
   (.usesRegex,           "uses regex (no regex helper in BPF)"),
   (.usesIo,              "performs I/O (host-side only)"),
   (.usesThread,          "creates Thread (kernel cannot create threads)"),
   (.usesFiber,           "uses Fiber (no fiber concept in BPF)"),
   (.usesClosure,         "uses closure with captured outer vars"),
   (.usesRecursion,       "calls itself recursively (BPF call graph is a DAG)"),
   (.usesBignum,          "uses bignum (BPF integers are 64-bit max)"),
   (.usesUnboundedLoop,   "has loop without static upper bound"),
   (.usesUnsupportedType, "signature uses non-int type (string/array/hash/...)"),
   (.inheritsUnsupported, "calls another method that is eBPF-impossible")]

/-- `ALL_FLAGS`. -/
def allFlags : List Flag := flagReasons.map Prod.fst

/-- `LINUX_EBPF`. -/
def linuxEbpf : TargetProfile := ⟨"linux-ebpf", allFlags, none, ""⟩

/-- `AMP`; the allowlist is the `amp` column of the builtin schema. -/
def amp : TargetProfile :=
  ⟨"amp", allFlags, some ["spnl_emit", "ktime_ns"],
    "ivar RMW (@x/@x += n), integer arithmetic, if/locals, spnl_emit, ktime_ns"⟩

namespace MethodFlags

/-- `unsupported_calls_for`. -/
def unsupportedCallsFor (flags : MethodFlags) (profile : TargetProfile) : List String :=
  if profile.callAllowlist.isNone then []
  else (flags.calls.filter fun c => identifierCall c && !profile.allowsCall c).eraseDups

/-- `impossible_for?`. -/
def impossibleFor (flags : MethodFlags) (profile : TargetProfile) : Bool :=
  profile.fatalFlags.any flags.get || !(flags.unsupportedCallsFor profile).isEmpty

/-- `reasons_for`. -/
def reasonsFor (flags : MethodFlags) (profile : TargetProfile) : List String :=
  let r := (flagReasons.filter fun e => profile.fatalFlags.contains e.1 && flags.get e.1).map
    Prod.snd
  let bad := flags.unsupportedCallsFor profile
  if bad.isEmpty then r
  else r ++ ["calls " ++ ", ".intercalate (bad.map fun c => "'" ++ c ++ "'") ++
    " — not available on the " ++ profile.name ++ " target (supported: " ++
    profile.supportedSummary ++ ")"]

variable {flags : MethodFlags} {profile : TargetProfile}

@[simp] theorem raise_calls (f : Flag) : (flags.raise f).calls = flags.calls := rfl

@[simp] theorem raise_get_self (f : Flag) : (flags.raise f).get f = true :=
  Function.update_self ..

theorem raise_get_of_ne {f g : Flag} (h : g ≠ f) : (flags.raise f).get g = flags.get g :=
  Function.update_of_ne h ..

theorem raise_get_mono {f g : Flag} (h : flags.get g = true) : (flags.raise f).get g = true := by
  by_cases hg : g = f
  · rw [hg, raise_get_self]
  · rw [raise_get_of_ne hg, h]

theorem impossibleFor_iff :
    flags.impossibleFor profile = true ↔
      (∃ f ∈ profile.fatalFlags, flags.get f = true) ∨ flags.unsupportedCallsFor profile ≠ [] := by
  simp [impossibleFor]

/-- More flags, and the same calls, are no better. -/
theorem impossibleFor_mono {a b : MethodFlags} (hcalls : b.calls = a.calls)
    (hget : ∀ f, a.get f = true → b.get f = true) (h : a.impossibleFor profile = true) :
    b.impossibleFor profile = true := by
  rw [impossibleFor_iff] at h ⊢
  refine h.imp (fun ⟨f, hf, ha⟩ => ⟨f, hf, hget f ha⟩) fun hbad => ?_
  rwa [unsupportedCallsFor, hcalls]

/-- **A refusal has a reason.**  For a profile whose fatal flags are listed ones. -/
theorem impossibleFor_iff_reasonsFor (h : profile.fatalFlags ⊆ allFlags) :
    flags.impossibleFor profile = true ↔ flags.reasonsFor profile ≠ [] := by
  rw [impossibleFor_iff, reasonsFor]
  by_cases hbad : flags.unsupportedCallsFor profile = []
  · rw [hbad]
    simp only [ne_eq, not_true_eq_false, or_false, List.isEmpty_nil, if_true, List.map_eq_nil_iff,
      List.filter_eq_nil_iff, not_forall, Bool.and_eq_true, List.contains_iff_mem]
    constructor
    · rintro ⟨f, hf, hget⟩
      obtain ⟨e, he, rfl⟩ := List.mem_map.mp (h hf)
      exact ⟨e, he, not_not.mpr ⟨hf, hget⟩⟩
    · rintro ⟨e, -, hne⟩
      obtain ⟨hf, hget⟩ := not_not.mp hne
      exact ⟨e.1, hf, hget⟩
  · simp [hbad]

end MethodFlags

end SpinelEbpf.Partition

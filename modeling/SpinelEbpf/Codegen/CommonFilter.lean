import Mathlib

/-!
# Codegen — the common filter

`filter_by` declares some of six keys, and `cc_emit_common_filter` writes `spnl_filter_discard` for
them.  Keys that come from one helper share its call: the test whether a key is set is hoisted to
the pair, and is left out of the inner test when the other key is not declared.  So there are as
many functions as there are sets of keys; `ccEmitCommonFilter` is the generator and `run` what the
generated statements do.

`discards_pair` is one pair of keys in all its shapes, `filter_exact` the whole function.
-/

namespace SpinelEbpf.Codegen.Filter

/-- `CC_FILTER_KEYS`. -/
inductive Key where
  | pid
  | tid
  | uid
  | gid
  | cgroupId
  | comm
  deriving DecidableEq, Repr

/-- The variables in `.rodata`, one for each key. -/
structure Vars where
  pid : Int64
  tid : Int64
  uid : Int64
  gid : Int64
  cgroupId : Int64
  comm : Vector UInt8 16

/-- The current task. -/
structure Task where
  pid : UInt32
  tid : UInt32
  uid : UInt32
  gid : UInt32
  cgroupId : UInt64
  comm : Vector UInt8 16

/-! ### The generated code -/

/-- A condition: that a key is set, that its variable is not the task's value, and their
combinations. -/
inductive Cond where
  | isSet (k : Key)
  | differs (k : Key)
  | or (a b : Cond)
  | and (a b : Cond)
  deriving DecidableEq, Repr

/-- The helpers that return two values at once. -/
inductive Helper where
  | pidTgid
  | uidGid
  deriving DecidableEq, Repr

/-- A statement: `if (c) return 1;`, `if (guard) { __u64 x = helper(); … }` with such statements
inside, and the comparison of the 16 bytes of `comm`. -/
inductive Stmt where
  | discardIf (c : Cond)
  | withHelper (guard : Cond) (helper : Helper) (body : List Cond)
  | compareComm
  deriving DecidableEq, Repr

/-- The guard of a pair, one of which is declared. -/
def pairGuard (declared : Key → Bool) (a b : Key) : Cond :=
  if declared a then
    if declared b then .or (.isSet a) (.isSet b) else .isSet a
  else .isSet b

/-- The test of a key; the guard has established that it is set if it stands alone. -/
def pairTest (declared : Key → Bool) (k other : Key) : List Cond :=
  if declared k then
    if declared other then [.and (.isSet k) (.differs k)] else [.differs k]
  else []

/-- One of `GROUPS`. -/
def pair (declared : Key → Bool) (a b : Key) (helper : Helper) : List Stmt :=
  if !declared a && !declared b then []
  else [.withHelper (pairGuard declared a b) helper (pairTest declared a b ++ pairTest declared b a)]

/-- `cc_emit_common_filter`: the statements before the final `return 0`. -/
def ccEmitCommonFilter (declared : Key → Bool) : List Stmt :=
  pair declared .pid .tid .pidTgid ++ pair declared .uid .gid .uidGid ++
    (if declared .cgroupId then [.discardIf (.and (.isSet .cgroupId) (.differs .cgroupId))] else []) ++
    if declared .comm then [.compareComm] else []

/-! ### What it does -/

/-- `bpf_get_current_pid_tgid` and `bpf_get_current_uid_gid`. -/
def Helper.call (task : Task) : Helper → UInt64
  | .pidTgid => task.pid.toUInt64 <<< 32 ||| task.tid.toUInt64
  | .uidGid  => task.gid.toUInt64 <<< 32 ||| task.uid.toUInt64

/-- `(__s64)(__u32)x`. -/
def low (x : UInt64) : Int64 := x.toUInt32.toUInt64.toInt64

/-- The predicate that a key is set. -/
def Vars.isSet (vars : Vars) : Key → Bool
  | .pid      => vars.pid ≠ 0
  | .tid      => vars.tid ≠ 0
  | .uid      => vars.uid ≥ 0
  | .gid      => vars.gid ≥ 0
  | .cgroupId => vars.cgroupId ≠ 0
  | .comm     => vars.comm[0] ≠ 0

/-- `CMP`, and the comparison of the cgroup; `x` is what the helper returned.  No condition of this
kind is generated for `comm`. -/
def Vars.differs (vars : Vars) (task : Task) (x : UInt64) : Key → Bool
  | .pid      => vars.pid ≠ low (x >>> 32)
  | .tid      => vars.tid ≠ low x
  | .uid      => vars.uid ≠ low x
  | .gid      => vars.gid ≠ low (x >>> 32)
  | .cgroupId => vars.cgroupId ≠ task.cgroupId.toInt64
  | .comm     => vars.comm ≠ task.comm

def Cond.eval (vars : Vars) (task : Task) (x : UInt64) : Cond → Bool
  | .isSet k   => vars.isSet k
  | .differs k => vars.differs task x k
  | .or a b    => a.eval vars task x || b.eval vars task x
  | .and a b   => a.eval vars task x && b.eval vars task x

/-- Whether a statement returns 1; otherwise control goes on. -/
def Stmt.discards (vars : Vars) (task : Task) : Stmt → Bool
  | .discardIf c => c.eval vars task 0
  | .withHelper guard helper body =>
      guard.eval vars task 0 && body.any fun c => c.eval vars task (helper.call task)
  | .compareComm                  =>
      vars.isSet .comm && (List.finRange 16).any fun i => task.comm[i] ≠ vars.comm[i]

/-- `spnl_filter_discard`. -/
def run (vars : Vars) (task : Task) (stmts : List Stmt) : Nat :=
  if stmts.any fun s => s.discards vars task then 1 else 0

/-! ### What it should do -/

/-- The task's value of a key is the stored one. -/
def Vars.agrees (vars : Vars) (task : Task) : Key → Prop
  | .pid      => vars.pid.toInt = task.pid.toNat
  | .tid      => vars.tid.toInt = task.tid.toNat
  | .uid      => vars.uid.toInt = task.uid.toNat
  | .gid      => vars.gid.toInt = task.gid.toNat
  | .cgroupId => vars.cgroupId.toUInt64 = task.cgroupId
  | .comm     => vars.comm = task.comm

/-! ### The two halves of a helper's value -/

theorem toNat_halves (hi lo : UInt32) :
    (hi.toUInt64 <<< 32 ||| lo.toUInt64).toNat = hi.toNat * 2 ^ 32 + lo.toNat := by
  have hhi := hi.toNat_lt
  have hlo := lo.toNat_lt
  have hshift : (32 : UInt64).toNat % 64 = 32 := rfl
  rw [UInt64.toNat_or, UInt64.toNat_shiftLeft, hshift, UInt32.toNat_toUInt64, UInt32.toNat_toUInt64,
    Nat.shiftLeft_eq, Nat.mod_eq_of_lt (by omega), ← Nat.shiftLeft_eq,
    ← Nat.shiftLeft_add_eq_or_of_lt hlo, Nat.shiftLeft_eq]

theorem low_toInt (x : UInt64) : (low x).toInt = (x.toNat % 2 ^ 32 : Nat) := by
  have hlt : x.toNat % 2 ^ 32 < 2 ^ 32 := Nat.mod_lt _ (by decide)
  have hnat : x.toUInt32.toUInt64.toNat = x.toNat % 2 ^ 32 := by
    rw [UInt32.toNat_toUInt64, UInt64.toNat_toUInt32]
  show (x.toUInt32.toUInt64.toBitVec).toInt = _
  rw [BitVec.toInt_eq_toNat_of_lt]
  · exact congrArg _ hnat
  · show 2 * x.toUInt32.toUInt64.toNat < _
    omega

/-- A variable against half a word. -/
theorem eq_low_iff {x : UInt64} {n : UInt32} (hx : x.toNat % 2 ^ 32 = n.toNat) (v : Int64) :
    v = low x ↔ v.toInt = n.toNat := by
  rw [← Int64.toInt_inj, low_toInt, hx]

theorem high_half (hi lo : UInt32) :
    ((hi.toUInt64 <<< 32 ||| lo.toUInt64) >>> 32).toNat % 2 ^ 32 = hi.toNat := by
  have hhi := hi.toNat_lt
  have hlo := lo.toNat_lt
  have hshift : (32 : UInt64).toNat % 64 = 32 := rfl
  rw [UInt64.toNat_shiftRight, hshift, toNat_halves, Nat.shiftRight_eq_div_pow]
  omega

theorem low_half (hi lo : UInt32) :
    (hi.toUInt64 <<< 32 ||| lo.toUInt64).toNat % 2 ^ 32 = lo.toNat := by
  have hlo := lo.toNat_lt
  rw [toNat_halves]
  omega

section

variable (vars : Vars) (task : Task)

/-- **One pair of keys**, whichever of them are declared. -/
theorem discards_pair (declared : Key → Bool) (a b : Key) (helper : Helper) :
    ((pair declared a b helper).any fun s => s.discards vars task) =
      ((declared a && (vars.isSet a && vars.differs task (helper.call task) a)) ||
        (declared b && (vars.isSet b && vars.differs task (helper.call task) b))) := by
  unfold pair pairGuard pairTest
  cases declared a <;> cases declared b
  · rfl
  · simp [Stmt.discards, Cond.eval]
  · simp [Stmt.discards, Cond.eval]
  · cases ha : vars.isSet a <;> cases hb : vars.isSet b <;>
      simp [Stmt.discards, Cond.eval, ha, hb]

/-- The helper that a key's comparison uses. -/
def Key.source (task : Task) : Key → UInt64
  | .pid | .tid => Helper.pidTgid.call task
  | .uid | .gid => Helper.uidGid.call task
  | _ => 0

theorem differs_iff (k : Key) :
    vars.differs task (k.source task) k = true ↔ ¬ vars.agrees task k := by
  cases k with
  | pid => exact decide_eq_true_iff.trans (not_congr (eq_low_iff (high_half ..) _))
  | tid => exact decide_eq_true_iff.trans (not_congr (eq_low_iff (low_half ..) _))
  | uid => exact decide_eq_true_iff.trans (not_congr (eq_low_iff (low_half ..) _))
  | gid => exact decide_eq_true_iff.trans (not_congr (eq_low_iff (high_half ..) _))
  | cgroupId =>
      refine decide_eq_true_iff.trans (not_congr ⟨fun h => ?_, fun h => ?_⟩)
      · show vars.cgroupId.toUInt64 = _
        rw [h]
        rfl
      · have hc : vars.cgroupId.toUInt64 = task.cgroupId := h
        rw [← hc]
        rfl
  | comm => exact decide_eq_true_iff

/-- The loop over the bytes of `comm`. -/
theorem any_byte_ne (u v : Vector UInt8 16) :
    ((List.finRange 16).any fun i => decide (u[i] ≠ v[i])) = true ↔ ¬ v = u := by
  rw [List.any_eq_true]
  constructor
  · rintro ⟨i, -, hi⟩ rfl
    exact of_decide_eq_true hi rfl
  · intro hne
    by_contra hnone
    push Not at hnone
    refine hne (Vector.ext fun i hi => ?_)
    have hsame := hnone ⟨i, hi⟩ (List.mem_finRange _)
    exact (not_not.mp (of_decide_eq_false (Bool.eq_false_iff.mpr hsame))).symm

/-- The part of the filter that belongs to a key alone. -/
theorem discards_single (declared : Key → Bool) {k : Key} {s : Stmt}
    (hs : s.discards vars task = true ↔ vars.isSet k = true ∧ ¬ vars.agrees task k) :
    ((if declared k then [s] else []).any fun s => s.discards vars task) = true ↔
      declared k = true ∧ vars.isSet k = true ∧ ¬ vars.agrees task k := by
  cases declared k with
  | false => exact iff_of_false Bool.false_ne_true fun hc => Bool.false_ne_true hc.1
  | true =>
      rw [if_pos rfl, List.any_cons, List.any_nil, Bool.or_false, hs]
      exact (and_iff_right rfl).symm

/-- The part that belongs to a pair. -/
theorem discards_pair_iff (declared : Key → Bool) {a b : Key} {helper : Helper}
    (ha : a.source task = helper.call task) (hb : b.source task = helper.call task) :
    ((pair declared a b helper).any fun s => s.discards vars task) = true ↔
      (declared a = true ∧ vars.isSet a = true ∧ ¬ vars.agrees task a) ∨
        (declared b = true ∧ vars.isSet b = true ∧ ¬ vars.agrees task b) := by
  have hda := differs_iff vars task a
  have hdb := differs_iff vars task b
  rw [ha] at hda
  rw [hb] at hdb
  rw [discards_pair, Bool.or_eq_true, Bool.and_eq_true, Bool.and_eq_true, Bool.and_eq_true,
    Bool.and_eq_true, hda, hdb]

/-- **When the filter discards**: some declared key is set and the task has another value. -/
theorem discards_iff (declared : Key → Bool) :
    ((ccEmitCommonFilter declared).any fun s => s.discards vars task) = true ↔
      ∃ k, declared k = true ∧ vars.isSet k = true ∧ ¬ vars.agrees task k := by
  have hcgroup : Stmt.discards vars task (.discardIf (.and (.isSet .cgroupId) (.differs .cgroupId))) =
      true ↔ vars.isSet .cgroupId = true ∧ ¬ vars.agrees task .cgroupId := by
    rw [← differs_iff vars task .cgroupId]
    exact (Bool.and_eq_true _ _).to_iff
  have hcomm : Stmt.discards vars task .compareComm = true ↔
      vars.isSet .comm = true ∧ ¬ vars.agrees task .comm := by
    rw [Stmt.discards, Bool.and_eq_true, any_byte_ne]
    rfl
  unfold ccEmitCommonFilter
  rw [List.any_append, List.any_append, List.any_append, Bool.or_eq_true, Bool.or_eq_true,
    Bool.or_eq_true, discards_pair_iff vars task declared rfl rfl,
    discards_pair_iff vars task declared rfl rfl, discards_single vars task declared hcgroup,
    discards_single vars task declared hcomm]
  constructor
  · rintro ((((h | h) | (h | h)) | h) | h)
    · exact ⟨.pid, h⟩
    · exact ⟨.tid, h⟩
    · exact ⟨.uid, h⟩
    · exact ⟨.gid, h⟩
    · exact ⟨.cgroupId, h⟩
    · exact ⟨.comm, h⟩
  · rintro ⟨k, h⟩
    cases k with
    | pid => exact .inl (.inl (.inl (.inl h)))
    | tid => exact .inl (.inl (.inl (.inr h)))
    | uid => exact .inl (.inl (.inr (.inl h)))
    | gid => exact .inl (.inl (.inr (.inr h)))
    | cgroupId => exact .inl (.inr h)
    | comm => exact .inr h

/-- **The filter is the conjunction over the keys that are set.**  Whatever keys are declared,
`spnl_filter_discard` returns 0 exactly if for each declared key that is set the task's value is the
stored one, and it returns 1 otherwise. -/
theorem filter_exact (declared : Key → Bool) :
    (run vars task (ccEmitCommonFilter declared) = 0 ↔
      ∀ k, declared k = true → vars.isSet k = true → vars.agrees task k) ∧
      (run vars task (ccEmitCommonFilter declared) = 0 ∨
        run vars task (ccEmitCommonFilter declared) = 1) := by
  have hdiscards := discards_iff vars task declared
  unfold run
  by_cases hsome : ∃ k, declared k = true ∧ vars.isSet k = true ∧ ¬ vars.agrees task k
  · rw [if_pos (hdiscards.mpr hsome)]
    refine ⟨iff_of_false one_ne_zero fun hall => ?_, .inr rfl⟩
    obtain ⟨k, hdecl, hset, hne⟩ := hsome
    exact hne (hall k hdecl hset)
  · rw [if_neg fun hc => hsome (hdiscards.mp hc)]
    refine ⟨iff_of_true rfl fun k hdecl hset => ?_, .inl rfl⟩
    by_contra hne
    exact hsome ⟨k, hdecl, hset, hne⟩

end

end SpinelEbpf.Codegen.Filter

import SpinelEbpf.Support.Probing

/-!
# Codegen — the hash table in the arena

`arena_hash_set`, `arena_hash_get` and `arena_hash_del` are lowered to a search over eight of 256
pairs of arena words.  The loop is unrolled and has no exit: a flag keeps the rounds after the first
hit from doing anything (`foldl_once`).

The three are the operations of an open-addressing table (`arenaHashSet_eq`, `arenaHashGet_eq`,
`arenaHashDel_eq`), so a run of them, from a zeroed arena, answers as the map of its own history
would (`arena_hash_answers`).
-/

namespace SpinelEbpf.Codegen.ArenaHash
open Function Probing

/-- `<unit>_arena_data`, 512 words. -/
abbrev Arena := Nat → UInt64

/-- `((__u32)k * 2654435761U) & 255U`. -/
def hash (k : UInt64) : UInt32 := (k.toUInt32 * 2654435761) &&& 255

/-- `(h + (__u32)i) & 255U`. -/
def probe (k : UInt64) (i : Nat) : Nat := ((hash k + UInt32.ofNat i) &&& 255).toNat

/-- The eight rounds. -/
def rounds : List Nat := List.range 8

/-- The pair `s`. -/
def write (data : Arena) (s : Nat) (k v : UInt64) : Arena :=
  update (update data (2 * s) k) (2 * s + 1) v

/-- `arena_hash_set`. -/
def arenaHashSet (data : Arena) (k v : UInt64) : Int64 × Arena :=
  rounds.foldl (fun st i =>
    if st.1 = 0 ∧ (st.2 (2 * probe k i) = 0 ∨ st.2 (2 * probe k i) = k) then
      (1, write st.2 (probe k i) k v)
    else st) (0, data)

/-- `arena_hash_get`. -/
def arenaHashGet (data : Arena) (k : UInt64) : Int64 :=
  (rounds.foldl (fun st i =>
    if st.1 = (0 : Int64) ∧ data (2 * probe k i) = k then (1, (data (2 * probe k i + 1)).toInt64)
    else st) (0, 0)).2

/-- `arena_hash_del`. -/
def arenaHashDel (data : Arena) (k : UInt64) : Int64 × Arena :=
  rounds.foldl (fun st i =>
    if st.1 = 0 ∧ st.2 (2 * probe k i) = k then (1, write st.2 (probe k i) (~~~0) 0)
    else st) (0, data)

/-! ### The table -/

/-- The pairs of the arena. -/
def table (data : Arena) : Table Nat UInt64 UInt64 :=
  ⟨fun s => data (2 * s), fun s => data (2 * s + 1)⟩

/-- Key 0 is the empty marker and `~0` the tombstone. -/
def layout : Layout Nat UInt64 where
  empty := 0
  tomb := ~~~0
  path := fun k => rounds.map (probe k)
  apart := by decide

theorem table_write (data : Arena) (s : Nat) (k v : UInt64) :
    table (write data s k v) = (table data).put s k v := by
  unfold table write Table.put
  congr 1
  · funext s'
    rw [update_of_ne (by omega)]
    by_cases hs : s' = s
    · rw [hs, update_self, update_self]
    · rw [update_of_ne (by omega), update_of_ne hs]
  · funext s'
    by_cases hs : s' = s
    · rw [hs, update_self, update_self]
    · rw [update_of_ne (by omega), update_of_ne (by omega),
        update_of_ne hs]

section Once

variable {ι τ : Type} (p : τ → ι → Prop) [∀ x i, Decidable (p x i)] (act : τ → ι → τ)

theorem foldl_done (l : List ι) (x : τ) :
    l.foldl (fun st i => if st.1 = (0 : Int64) ∧ p st.2 i then (1, act st.2 i) else st) (1, x) =
      (1, x) := by
  induction l with
  | nil => rfl
  | cons i l ih =>
      have hset : ¬ (1 : Int64) = 0 := by decide
      rw [List.foldl_cons, if_neg fun hc => hset hc.1]
      exact ih

/-- **The flag makes the first hit the only one.** -/
theorem foldl_once (l : List ι) (x : τ) :
    l.foldl (fun st i => if st.1 = (0 : Int64) ∧ p st.2 i then (1, act st.2 i) else st) (0, x) =
      match l.find? fun i => p x i with
      | none   => (0, x)
      | some i => (1, act x i) := by
  induction l with
  | nil => rfl
  | cons i l ih =>
      rw [List.foldl_cons]
      by_cases hp : p x i
      · rw [if_pos ⟨rfl, hp⟩, foldl_done]
        simp only [List.find?_cons, decide_eq_true hp]
      · rw [if_neg fun hc => hp hc.2, ih]
        simp only [List.find?_cons, decide_eq_false hp]

end Once

theorem room_layout (data : Arena) (k : UInt64) :
    room layout (table data) k =
      (rounds.find? fun i => data (2 * probe k i) = 0 ∨ data (2 * probe k i) = k).map (probe k) :=
  List.find?_map

theorem find_layout (data : Arena) (k : UInt64) :
    find layout (table data) k = (rounds.find? fun i => data (2 * probe k i) = k).map (probe k) :=
  List.find?_map

theorem arenaHashSet_eq (data : Arena) (k v : UInt64) :
    arenaHashSet data k v =
      match room layout (table data) k with
      | none   => (0, data)
      | some s => (1, write data s k v) := by
  rw [room_layout, arenaHashSet,
    foldl_once (fun data i => data (2 * probe k i) = 0 ∨ data (2 * probe k i) = k)
      fun data i => write data (probe k i) k v]
  cases rounds.find? fun i => data (2 * probe k i) = 0 ∨ data (2 * probe k i) = k <;> rfl

theorem arenaHashGet_eq (data : Arena) (k : UInt64) :
    arenaHashGet data k =
      match find layout (table data) k with
      | none   => 0
      | some s => ((table data).val s).toInt64 := by
  rw [find_layout, arenaHashGet, foldl_once (fun _ i => data (2 * probe k i) = k)
    fun _ i => (data (2 * probe k i + 1)).toInt64]
  cases rounds.find? fun i => data (2 * probe k i) = k <;> rfl

theorem arenaHashDel_eq (data : Arena) (k : UInt64) :
    arenaHashDel data k =
      match find layout (table data) k with
      | none   => (0, data)
      | some s => (1, write data s (~~~0) 0) := by
  rw [find_layout, arenaHashDel, foldl_once (fun data i => data (2 * probe k i) = k)
    fun data i => write data (probe k i) (~~~0) 0]
  cases rounds.find? fun i => data (2 * probe k i) = k <;> rfl

/-! ### Runs -/

/-- A call. -/
inductive Op where
  | set (k v : UInt64)
  | get (k : UInt64)
  | del (k : UInt64)
  deriving DecidableEq, Repr

def Op.key : Op → UInt64
  | .set k _ => k
  | .get k   => k
  | .del k   => k

/-- What a call returns, and the arena after it. -/
def Op.run (data : Arena) : Op → Int64 × Arena
  | .set k v => arenaHashSet data k v
  | .get k   => (arenaHashGet data k, data)
  | .del k   => arenaHashDel data k

/-- The arena after some calls, and the calls with what they returned, the latest first. -/
structure History where
  arena : Arena
  calls : List (Op × Int64)

def History.call (h : History) (op : Op) : History :=
  ⟨(op.run h.arena).2, (op, (op.run h.arena).1) :: h.calls⟩

/-- Calls on a zeroed arena. -/
def History.run (ops : List Op) : History := ops.foldl History.call ⟨fun _ => 0, []⟩

/-- The value of the latest set of `k` that returned 1, if no del of `k` came after it. -/
def latest (k : UInt64) : List (Op × Int64) → Option UInt64
  | [] => none
  | (.set k' v, r) :: calls => if k' = k ∧ r = 1 then some v else latest k calls
  | (.get _, _) :: calls => latest k calls
  | (.del k', _) :: calls => if k' = k then none else latest k calls

/-- The arena is the map of its history. -/
structure Faithful (h : History) : Prop where
  sound : Sound layout (table h.arena)
  latest : ∀ k, layout.Live k → ∀ v, Has (table h.arena) k v ↔ latest k h.calls = some v

theorem faithful_start : Faithful ⟨fun _ => 0, []⟩ where
  sound := sound_of_empty fun _ => rfl
  latest := fun _ hk _ => iff_of_false (not_has_of_empty (fun _ => rfl) hk)
    (Option.some_ne_none _).symm

/-- **One call keeps the arena faithful.** -/
theorem Faithful.call {h : History} (hf : Faithful h) {op : Op} (hop : layout.Live op.key) :
    Faithful (h.call op) := by
  cases op with
  | set k v =>
      have hk : layout.Live k := hop
      have hrun : Op.run h.arena (.set k v) = arenaHashSet h.arena k v := rfl
      rw [arenaHashSet_eq] at hrun
      unfold History.call
      rw [hrun]
      cases hroom : room layout (table h.arena) k with
      | none =>
          refine ⟨hf.sound, fun k' hk' v' => ?_⟩
          rw [hf.latest k' hk']
          dsimp only [ArenaHash.latest]
          rw [if_neg fun hc => absurd hc.2 (by decide)]
      | some s =>
          refine ⟨?_, fun k' hk' v' => ?_⟩
          · dsimp only
            rw [table_write]
            exact hf.sound.put hk hroom v
          · dsimp only [ArenaHash.latest]
            rw [table_write, has_put_iff hf.sound hk hroom hk']
            by_cases hkk : k' = k
            · rw [if_pos hkk, if_pos ⟨hkk.symm, rfl⟩]
              exact ⟨fun hv => congrArg some hv.symm, fun hv => (Option.some.inj hv).symm⟩
            · rw [if_neg hkk, if_neg fun hc => hkk hc.1.symm]
              exact hf.latest k' hk' v'
  | get k => exact ⟨hf.sound, hf.latest⟩
  | del k =>
      have hk : layout.Live k := hop
      have hrun : Op.run h.arena (.del k) = arenaHashDel h.arena k := rfl
      rw [arenaHashDel_eq] at hrun
      unfold History.call
      rw [hrun]
      cases hfind : find layout (table h.arena) k with
      | none =>
          refine ⟨hf.sound, fun k' hk' v' => ?_⟩
          dsimp only [ArenaHash.latest]
          by_cases hkk : k' = k
          · rw [if_pos hkk.symm]
            refine iff_of_false ?_ (Option.some_ne_none v').symm
            rw [hkk]
            exact (find_eq_none_iff hf.sound hk).mp hfind v'
          · rw [if_neg (Ne.symm hkk)]
            exact hf.latest k' hk' v'
      | some s =>
          have hs := (find_eq_some_iff hf.sound hk).mp hfind
          refine ⟨?_, fun k' hk' v' => ?_⟩
          · dsimp only
            rw [table_write]
            exact hf.sound.drop s 0
          · dsimp only [ArenaHash.latest]
            rw [table_write]
            refine (has_drop_iff hf.sound hk hs hk').trans ?_
            by_cases hkk : k' = k
            · rw [if_pos hkk.symm]
              exact iff_of_false (fun hc => hc.1 hkk) (Option.some_ne_none v').symm
            · rw [if_neg (Ne.symm hkk), hf.latest k' hk']
              exact and_iff_right hkk

theorem faithful_run (ops : List Op) (hops : ∀ op ∈ ops, layout.Live op.key) :
    Faithful (History.run ops) := by
  induction ops using List.reverseRecOn with
  | nil => exact faithful_start
  | append_singleton ops op ih =>
      rw [History.run, List.foldl_append]
      refine (ih fun op' h => hops op' (List.mem_append_left _ h)).call (hops op ?_)
      exact List.mem_append_right _ List.mem_cons_self

/-- The search for a key finds its value in the map. -/
theorem Faithful.find {h : History} (hf : Faithful h) {k : UInt64} (hk : layout.Live k) :
    (find layout (table h.arena) k = none ∧ ArenaHash.latest k h.calls = none) ∨
      ∃ s, find layout (table h.arena) k = some s ∧
        ArenaHash.latest k h.calls = some ((table h.arena).val s) := by
  cases hfind : Probing.find layout (table h.arena) k with
  | none =>
      have hnone := (find_eq_none_iff hf.sound hk).mp hfind
      refine .inl ⟨rfl, Option.eq_none_iff_forall_ne_some.mpr fun v hv => ?_⟩
      exact hnone v ((hf.latest k hk v).mpr hv)
  | some s =>
      have hs := (find_eq_some_iff hf.sound hk).mp hfind
      exact .inr ⟨s, rfl, (hf.latest k hk _).mp ⟨s, hs, rfl⟩⟩

/-- **The arena hash is a map.**  After any calls on a zeroed arena with keys other than 0 and
2⁶⁴ - 1, a get of such a key returns the value of the latest set of it that returned 1 and was not
followed by a del, and 0 if there is none; a del returns 1 if there is one and 0 otherwise; and a
set returns 1, or returns 0 and changes nothing. -/
theorem arena_hash_answers (ops : List Op) (hops : ∀ op ∈ ops, op.key ≠ 0 ∧ op.key ≠ ~~~0)
    (k : UInt64) (hk : k ≠ 0 ∧ k ≠ ~~~0) :
    arenaHashGet (History.run ops).arena k =
        ((latest k (History.run ops).calls).getD 0).toInt64 ∧
      (arenaHashDel (History.run ops).arena k).1 =
        (if (latest k (History.run ops).calls).isSome then 1 else 0) ∧
      ∀ v, (arenaHashSet (History.run ops).arena k v).1 = 1 ∨
        arenaHashSet (History.run ops).arena k v = (0, (History.run ops).arena) := by
  have hf := faithful_run ops fun op hop => ⟨(hops op hop).1, (hops op hop).2⟩
  refine ⟨?_, ?_, fun v => ?_⟩
  · rw [arenaHashGet_eq]
    rcases hf.find ⟨hk.1, hk.2⟩ with ⟨hfind, hlatest⟩ | ⟨s, hfind, hlatest⟩
    · rw [hfind, hlatest]
      rfl
    · rw [hfind, hlatest]
      rfl
  · rw [arenaHashDel_eq]
    rcases hf.find ⟨hk.1, hk.2⟩ with ⟨hfind, hlatest⟩ | ⟨s, hfind, hlatest⟩
    · rw [hfind, hlatest]
      rfl
    · rw [hfind, hlatest]
      rfl
  · rw [arenaHashSet_eq]
    cases room layout (table (History.run ops).arena) k with
    | none => exact .inr rfl
    | some s => exact .inl rfl

/-- Two keys with one probe path, one of them deleted and stored again. -/
theorem arena_hash_answers_collision :
    probe 1 0 = probe 257 0 ∧
      arenaHashGet (History.run [.set 1 10, .set 257 20, .del 1, .set 1 30]).arena 1 = 30 := by
  obtain ⟨hget, -, -⟩ := arena_hash_answers [.set 1 10, .set 257 20, .del 1, .set 1 30] (by decide) 1
    (by decide)
  exact ⟨by decide, hget.trans (by decide)⟩

end SpinelEbpf.Codegen.ArenaHash

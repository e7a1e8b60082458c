import SpinelEbpf.Support.Grouping
import SpinelEbpf.Support.Selection

/-!
# Runtime — the leak report

`spnl_dump_leaks_obj` walks the map of allocations that were not freed, sums them by the stack that
made them, and reports the stacks with the most bytes.  The sums are the `Grouping` library at the
stack id, the choice of stacks is the first turns of a selection sort.

* `leakGroups_sums`: the group of a stack has the sums over the stack's allocations.
* `leak_report`: the report is the groups with the most bytes, in order.

The sums are `__u64`.  A map of the kernel has fewer than `2 ^ 32` entries, so the counts do not
overflow; the bytes may.
-/

namespace SpinelEbpf.Runtime

/-- A value of the allocation map. -/
structure Leak where
  size : Int64
  stackId : Int64
  deriving DecidableEq, Repr

/-- The allocations that were not freed, as the walk meets them: every address once. -/
structure LeakMap where
  entries : List (UInt64 × Leak)
  nodup : (entries.map Prod.fst).Nodup
  few : entries.length < 2 ^ 32

def LeakMap.leaks (map : LeakMap) : List Leak := map.entries.map Prod.snd

/-- `struct _spnl_leak_group`. -/
structure SpnlLeakGroup where
  stackId : Int64
  bytes : UInt64
  count : UInt64
  deriving DecidableEq, Repr

/-- What the report ranks by. -/
def SpnlLeakGroup.rank (g : SpnlLeakGroup) : Nat := g.bytes.toNat

/-- An allocation is added to the group of its stack; a new group starts at zero. -/
def leakRule : Grouping.Rule SpnlLeakGroup Int64 Leak where
  key := SpnlLeakGroup.stackId
  keyOf := Leak.stackId
  new v := ⟨v.stackId, 0, 0⟩
  update v g := { g with bytes := g.bytes + v.size.toUInt64, count := g.count + 1 }
  key_new _ := rfl
  key_update _ _ := rfl

/-- The groups after the walk over the map. -/
def leakGroups (leaks : List Leak) : List SpnlLeakGroup := leakRule.run leaks []

/-- What `spnl_dump_leaks_obj` reports. -/
structure LeakReport where
  totalAllocs : UInt64
  totalBytes : UInt64
  ngrp : Nat
  shown : List SpnlLeakGroup
  deriving DecidableEq, Repr

/-- `spnl_dump_leaks_obj`, without the symbols of the stacks. -/
def spnlDumpLeaks (map : LeakMap) (topN : Int) : LeakReport :=
  let topN := if topN ≤ 0 then 10 else topN.toNat
  let groups := Selection.selectTop SpnlLeakGroup.rank topN (leakGroups map.leaks)
  { totalAllocs := map.leaks.foldl (fun n _ => n + 1) 0
    totalBytes := map.leaks.foldl (fun n v => n + v.size.toUInt64) 0
    ngrp := groups.length
    shown := groups.take (if groups.length < topN then groups.length else topN) }

/-! ### The sums of a group -/

/-- The bytes of allocations, each as the `__u64` of its size. -/
def leakBytes (leaks : List Leak) : Nat := (leaks.map fun v => v.size.toUInt64.toNat).sum

/-- The allocations of a stack. -/
def ofStack (leaks : List Leak) (stackId : Int64) : List Leak :=
  leaks.filter fun v => v.stackId = stackId

/-- Allocations added to a group. -/
theorem updates_sums (leaks : List Leak) (g : SpnlLeakGroup) :
    (leakRule.updates leaks g).bytes = g.bytes + UInt64.ofNat (leakBytes leaks) ∧
      (leakRule.updates leaks g).count = g.count + UInt64.ofNat leaks.length := by
  induction leaks generalizing g with
  | nil => exact ⟨(UInt64.add_zero _).symm, (UInt64.add_zero _).symm⟩
  | cons v vs ih =>
      obtain ⟨hbytes, hcount⟩ := ih (leakRule.update v g)
      constructor
      · calc (leakRule.updates vs (leakRule.update v g)).bytes
          _ = g.bytes + v.size.toUInt64 + UInt64.ofNat (leakBytes vs) := hbytes
          _ = g.bytes + UInt64.ofNat (leakBytes (v :: vs)) := by
              rw [UInt64.add_assoc, leakBytes, leakBytes, List.map_cons, List.sum_cons,
                UInt64.ofNat_add, UInt64.ofNat_toNat]
      · calc (leakRule.updates vs (leakRule.update v g)).count
          _ = g.count + 1 + UInt64.ofNat vs.length := hcount
          _ = g.count + UInt64.ofNat (v :: vs).length := by
              rw [UInt64.add_assoc, List.length_cons, Nat.add_comm vs.length, UInt64.ofNat_add]
              rfl

/-- **The group of a stack has the sums over the stack's allocations.** -/
theorem leakGroups_sums {leaks : List Leak} {g : SpnlLeakGroup} (hg : g ∈ leakGroups leaks) :
    g.bytes = UInt64.ofNat (leakBytes (ofStack leaks g.stackId)) ∧
      g.count = UInt64.ofNat (ofStack leaks g.stackId).length := by
  obtain ⟨v, vs, hown, heq⟩ := (leakRule.grouped leaks).entry g hg
  have hofStack : ofStack leaks g.stackId = v :: vs := hown
  obtain ⟨hbytes, hcount⟩ := updates_sums (v :: vs) (leakRule.new v)
  rw [← heq] at hbytes hcount
  rw [hofStack]
  exact ⟨hbytes.trans (UInt64.zero_add _), hcount.trans (UInt64.zero_add _)⟩

/-- The counts do not overflow. -/
theorem length_ofStack_lt (map : LeakMap) (stackId : Int64) :
    (ofStack map.leaks stackId).length < 2 ^ 64 := by
  have hle : (ofStack map.leaks stackId).length ≤ map.leaks.length := List.length_filter_le _ _
  have hlen : map.leaks.length = map.entries.length := List.length_map _
  have := map.few
  omega

/-! ### The report -/

/-- The stacks of the map, each once. -/
def stackIds (leaks : List Leak) : List Int64 := (leaks.map Leak.stackId).dedup

theorem stackIds_perm (leaks : List Leak) :
    ((leakGroups leaks).map SpnlLeakGroup.stackId).Perm (stackIds leaks) := by
  have hgrouped := leakRule.grouped leaks
  refine (List.perm_ext_iff_of_nodup hgrouped.nodup (List.nodup_dedup _)).mpr fun id => ?_
  exact (hgrouped.mem_iff id).trans List.mem_dedup.symm

/-- **The leak report groups and ranks.**  There is a group for every stack, with the bytes (modulo
`2 ^ 64`) and the number of exactly the stack's allocations; the report has the first `topN` of
them, or all, each stack once, by falling bytes, and no other group has more bytes than a reported
one. -/
theorem leak_report (map : LeakMap) (topN : Int) (htop : 1 ≤ topN) :
    let groups := leakGroups map.leaks
    let shown := (spnlDumpLeaks map topN).shown
    (groups.map SpnlLeakGroup.stackId).Perm (stackIds map.leaks) ∧
    (∀ g ∈ groups,
      g.bytes.toNat = leakBytes (ofStack map.leaks g.stackId) % 2 ^ 64 ∧
      g.count.toNat = (ofStack map.leaks g.stackId).length) ∧
    shown ⊆ groups ∧ (shown.map SpnlLeakGroup.stackId).Nodup ∧
    shown.length = min topN.toNat (stackIds map.leaks).length ∧
    shown.Pairwise (fun g g' => g'.bytes ≤ g.bytes) ∧
    ∀ g ∈ groups, g ∉ shown → ∀ r ∈ shown, g.bytes ≤ r.bytes := by
  intro groups shown
  have hcap : (if topN ≤ 0 then 10 else topN.toNat) = topN.toNat := if_neg (by omega)
  obtain ⟨hperm, hsorted, hrest⟩ :
      (Selection.selectTop SpnlLeakGroup.rank topN.toNat groups).Perm groups ∧ _ ∧ _ :=
    Selection.selectTop_spec topN.toNat groups
  have hshown : shown = (Selection.selectTop SpnlLeakGroup.rank topN.toNat groups).take
      topN.toNat := by
    show (spnlDumpLeaks map topN).shown = _
    rw [spnlDumpLeaks, hcap]
    dsimp only
    split
    · rename_i hlt
      rw [List.take_length, List.take_of_length_le hlt.le]
    · rfl
  have hsub : shown ⊆ groups := by
    rw [hshown]
    exact fun g hg => hperm.subset (List.mem_of_mem_take hg)
  refine ⟨stackIds_perm map.leaks, fun g hg => ?_, hsub, ?_, ?_, ?_, fun g hg hnot r hr => ?_⟩
  · obtain ⟨hbytes, hcount⟩ := leakGroups_sums hg
    rw [hbytes, hcount]
    exact ⟨rfl, UInt64.toNat_ofNat_of_lt' (length_ofStack_lt map g.stackId)⟩
  · have hnodup : ((Selection.selectTop SpnlLeakGroup.rank topN.toNat groups).map
        SpnlLeakGroup.stackId).Nodup :=
      (hperm.map _).nodup_iff.mpr (leakRule.grouped map.leaks).nodup
    rw [hshown, List.map_take]
    exact hnodup.sublist (List.take_sublist _ _)
  · rw [hshown, List.length_take, hperm.length_eq, ← (stackIds_perm map.leaks).length_eq,
      List.length_map]
  · rw [hshown]
    exact hsorted.imp fun h => UInt64.le_iff_toNat_le.mpr h
  · rw [hshown] at hnot hr
    have hmem : g ∈ (Selection.selectTop SpnlLeakGroup.rank topN.toNat groups).drop topN.toNat := by
      have hall := hperm.mem_iff.mpr hg
      rw [← List.take_append_drop topN.toNat (Selection.selectTop _ _ _)] at hall
      exact (List.mem_append.mp hall).resolve_left hnot
    exact UInt64.le_iff_toNat_le.mpr (hrest r hr g hmem)

/-- Two stacks, and one reported. -/
def threeLeaks : LeakMap where
  entries := [(0x10, ⟨8, 1⟩), (0x20, ⟨64, 2⟩), (0x30, ⟨16, 1⟩)]
  nodup := by decide
  few := by decide

theorem leak_report_three :
    (leakGroups threeLeaks.leaks).length = 2 ∧
      (spnlDumpLeaks threeLeaks 1).shown.length = min 1 (stackIds threeLeaks.leaks).length ∧
      (spnlDumpLeaks threeLeaks 1).shown = [⟨2, 64, 1⟩] :=
  ⟨by decide, (leak_report threeLeaks 1 (by decide)).2.2.2.2.1, by decide⟩

end SpinelEbpf.Runtime

import SpinelEbpf.Support.Tally

/-!
# Runtime — lock-order inversions

`spnl_lock_edge` runs in the kernel, on any number of processors at once: a lock was held when
another was acquired.  It looks the pair of locks up in a hash map and then either adds one to the
count or inserts the pair if nobody has in the meantime.  `spnl_dump_deadlocks_obj` reads the map at
one time, in whatever order, and reports the pairs of locks that were taken in both orders.

* **The map** has exactly the pairs of the finished calls, in every interleaving, as long as they
  are no more than the map has room for (`mem_map_iff`).  Two calls that both miss lose a count,
  never the pair.
* **The report** has no pair twice, no pair that was not taken in both orders and, unless it
  reached its limit, every one that was (`deadlocks_reported`).
-/

namespace SpinelEbpf.Runtime.Deadlocks

open Function

/-! ### In the kernel -/

/-- `struct spnl_lock_edge`: the lock that was held and the one that was acquired. -/
abbrev Pair := UInt64 × UInt64

/-- An entry of `bpf_lock_edges`, and `struct _spnl_edge`. -/
structure Edge where
  pair : Pair
  count : UInt64
  deriving DecidableEq, Repr

/-- `max_entries` of `bpf_lock_edges`. -/
def maxEntries : Nat := 65536

/-- Where a processor is in `spnl_lock_edge`: outside, or behind the lookup. -/
inductive Cpu where
  | idle
  | found (k : Pair)
  | missed (k : Pair)

/-- The map, the processors, and the pairs of the calls that have returned. -/
structure System (P : Type) where
  map : List Edge
  cpu : P → Cpu
  finished : List Pair

def Pairs (map : List Edge) : List Pair := map.map Edge.pair

/-- `__sync_fetch_and_add(v, 1)`, where `v` is the value of the pair. -/
def fetchAdd (k : Pair) (map : List Edge) : List Edge :=
  map.map fun e => if e.pair = k then { e with count := e.count + 1 } else e

/-- `bpf_map_update_elem(…, BPF_NOEXIST)`, which fails if the pair is there or the map is full. -/
def updateNoexist (k : Pair) (map : List Edge) : List Edge :=
  if k ∈ Pairs map ∨ maxEntries ≤ map.length then map else map ++ [⟨k, 1⟩]

section

variable {P : Type} [DecidableEq P]

/-- The call on `p` returns. -/
def System.returns (σ : System P) (p : P) (k : Pair) (map : List Edge) : System P where
  map := map
  cpu := update σ.cpu p .idle
  finished := σ.finished ++ [k]

/-- One access of `spnl_lock_edge` to the map. -/
inductive Step : System P → System P → Prop where
  | hit {σ : System P} {p : P} {k : Pair} (h : σ.cpu p = .idle) (hk : k ∈ Pairs σ.map) :
      Step σ { σ with cpu := update σ.cpu p (.found k) }
  | miss {σ : System P} {p : P} {k : Pair} (h : σ.cpu p = .idle) (hk : k ∉ Pairs σ.map) :
      Step σ { σ with cpu := update σ.cpu p (.missed k) }
  | add {σ : System P} {p : P} {k : Pair} (h : σ.cpu p = .found k) :
      Step σ (σ.returns p k (fetchAdd k σ.map))
  | insert {σ : System P} {p : P} {k : Pair} (h : σ.cpu p = .missed k) :
      Step σ (σ.returns p k (updateNoexist k σ.map))

/-- No call yet, and an empty map. -/
def start : System P := ⟨[], fun _ => .idle, []⟩

abbrev Reachable (σ : System P) : Prop := Relation.ReflTransGen Step start σ

/-- What holds in every interleaving. -/
structure Sound (σ : System P) : Prop where
  nodup : (Pairs σ.map).Nodup
  counted : ∀ e ∈ σ.map, 0 < σ.finished.count e.pair ∧ e.count.toNat ≤ σ.finished.count e.pair
  kept : ∀ k ∈ σ.finished, k ∈ Pairs σ.map ∨ maxEntries ≤ σ.map.length
  found : ∀ p k, σ.cpu p = .found k → k ∈ Pairs σ.map

theorem pairs_fetchAdd (k : Pair) (map : List Edge) : Pairs (fetchAdd k map) = Pairs map := by
  rw [Pairs, fetchAdd, List.map_map]
  refine List.map_congr_left fun e _ => ?_
  show (if e.pair = k then ({ e with count := e.count + 1 } : Edge) else e).pair = e.pair
  split <;> rfl

/-- A processor that is behind a hit after `p` moved was so before, unless it is `p`. -/
theorem found_update {σ : System P} {p q : P} {c : Cpu} {k : Pair}
    (h : update σ.cpu p c q = .found k) : c = .found k ∨ σ.cpu q = .found k := by
  by_cases hq : q = p
  · rw [hq, update_self] at h
    exact .inl h
  · rw [update_of_ne hq] at h
    exact .inr h

/-- Returning from a call that changed the map to one with at least its pairs. -/
theorem Sound.returns {σ : System P} {p : P} {k : Pair} {map : List Edge} (hs : Sound σ)
    (hnodup : (Pairs map).Nodup) (hsub : Pairs σ.map ⊆ Pairs map)
    (hlen : σ.map.length ≤ map.length) (hk : k ∈ Pairs map ∨ maxEntries ≤ map.length)
    (hcount : ∀ e ∈ map, e ∈ σ.map ∨ e.pair = k ∧ e.count.toNat ≤ σ.finished.count k + 1) :
    Sound (σ.returns p k map) where
  nodup := hnodup
  counted e he := by
    show 0 < (σ.finished ++ [k]).count e.pair ∧ e.count.toNat ≤ (σ.finished ++ [k]).count e.pair
    rw [List.count_append]
    rcases hcount e he with hold | ⟨rfl, hle⟩
    · obtain ⟨hpos, hle⟩ := hs.counted e hold
      omega
    · rw [List.count_singleton_self]
      omega
  kept j hj := by
    rcases List.mem_append.mp hj with hold | hnew
    · exact (hs.kept j hold).imp (fun h => hsub h) hlen.trans'
    · exact List.mem_singleton.mp hnew ▸ hk
  found q j hj := by
    rcases found_update hj with h | h
    · cases h
    · exact hsub (hs.found q j h)

/-- A lookup that hits only what is there. -/
theorem Sound.look {σ : System P} {p : P} {c : Cpu} (hs : Sound σ)
    (hc : ∀ k, c = .found k → k ∈ Pairs σ.map) :
    Sound { σ with cpu := update σ.cpu p c } where
  nodup := hs.nodup
  counted := hs.counted
  kept := hs.kept
  found q k hk := (found_update hk).elim (hc k) (hs.found q k)

/-- **One access keeps what holds.** -/
theorem Sound.step {σ σ' : System P} (hs : Sound σ) (h : Step σ σ') : Sound σ' := by
  cases h with
  | hit hidle hk => exact hs.look (by rintro j ⟨⟩; exact hk)
  | miss hidle hk => exact hs.look (by rintro j ⟨⟩)
  | @add p k hfound =>
      have hpairs := pairs_fetchAdd k σ.map
      refine hs.returns (hpairs ▸ hs.nodup) (fun j hj => hpairs ▸ hj)
        (by rw [fetchAdd, List.length_map]) (.inl (hpairs ▸ hs.found p k hfound)) fun e he => ?_
      obtain ⟨d, hd, rfl⟩ := List.mem_map.mp he
      split
      next hdk =>
        refine .inr ⟨hdk, ?_⟩
        have hle := (hs.counted d hd).2
        have hone : (d.count + 1).toNat ≤ d.count.toNat + 1 := by
          rw [UInt64.toNat_add]
          exact Nat.mod_le _ _
        exact hone.trans (Nat.succ_le_succ (hdk ▸ hle))
      · exact .inl hd
  | @insert p k hmissed =>
      -- another call may have inserted the pair since the lookup
      by_cases hno : k ∈ Pairs σ.map ∨ maxEntries ≤ σ.map.length
      · rw [updateNoexist, if_pos hno]
        exact hs.returns hs.nodup (fun _ h => h) le_rfl hno fun e he => .inl he
      · rw [updateNoexist, if_neg hno]
        have hfresh := (not_or.mp hno).1
        have hnodup : (Pairs (σ.map ++ [⟨k, 1⟩])).Nodup :=
          Tally.nodup_push hs.nodup fun e he heq => hfresh (List.mem_map.mpr ⟨e, he, heq⟩)
        refine hs.returns hnodup ?_ (by simp) (.inl (by simp [Pairs])) fun e he => ?_
        · rw [Pairs, Pairs, List.map_append]
          exact List.subset_append_left _ _
        · rcases List.mem_append.mp he with hold | hnew
          · exact .inl hold
          · obtain rfl := List.mem_singleton.mp hnew
            exact .inr ⟨rfl, Nat.le_add_left _ _⟩

/-- **Every interleaving is sound.** -/
theorem sound_of_reachable {σ : System P} (h : Reachable σ) : Sound σ := by
  induction h with
  | refl => exact ⟨List.nodup_nil, by simp [start], by simp [start], by simp [start]⟩
  | tail _ hstep ih => exact ih.step hstep

/-- **The map has exactly the pairs of the finished calls**, if there is room for them. -/
theorem mem_map_iff {σ : System P} (h : Reachable σ)
    (hfew : σ.finished.dedup.length ≤ maxEntries) (k : Pair) :
    k ∈ Pairs σ.map ↔ k ∈ σ.finished := by
  have hs := sound_of_reachable h
  have hsub : ∀ j ∈ Pairs σ.map, j ∈ σ.finished := by
    intro j hj
    obtain ⟨e, he, rfl⟩ := List.mem_map.mp hj
    exact List.count_pos_iff.mp (hs.counted e he).1
  refine ⟨hsub k, fun hk => ?_⟩
  by_contra hnot
  have hfull := (hs.kept k hk).resolve_left hnot
  have hcons : (k :: Pairs σ.map).Nodup := List.nodup_cons.mpr ⟨hnot, hs.nodup⟩
  have hle := (hcons.subperm fun j hj => List.mem_dedup.mpr <|
    (List.mem_cons.mp hj).elim (fun heq => heq ▸ hk) (hsub j)).length_le
  rw [List.length_cons, Pairs, List.length_map] at hle
  omega

end

/-! ### The report -/

/-- A reported inversion: an edge and the one back. -/
structure Inversion where
  there : Edge
  back : Edge

def isBack (e f : Edge) : Bool := f.pair.1 = e.pair.2 && f.pair.2 = e.pair.1

/-- The outer loop, with the edges left and what was reported. -/
def reportLoop (edges : List Edge) (topN : Nat) : List Edge → List Inversion → List Inversion
  | [], out      => out
  | e :: es, out =>
      if topN ≤ out.length then out
      -- each pair once, from its smaller lock
      else if e.pair.1 ≥ e.pair.2 then reportLoop edges topN es out
      else
        match edges.find? (isBack e) with
        | some f => reportLoop edges topN es (out ++ [⟨e, f⟩])
        | none   => reportLoop edges topN es out

def limit (topN : Int) : Nat := if topN ≤ 0 then 100 else topN.toNat

/-- `spnl_dump_deadlocks_obj` on the entries as the map gives them: the inversions it prints, whose
number it returns. -/
def spnlDumpDeadlocks (entries : List Edge) (topN : Int) : List Inversion :=
  let edges := entries.filter fun e => e.pair.1 ≠ e.pair.2
  reportLoop edges (limit topN) edges []

/-- The inversion that an edge starts. -/
def inversion? (edges : List Edge) (e : Edge) : Option Inversion :=
  if e.pair.1 ≥ e.pair.2 then none else (edges.find? (isBack e)).map (⟨e, ·⟩)

theorem reportLoop_eq (edges : List Edge) (topN : Nat) (es : List Edge) (out : List Inversion) :
    reportLoop edges topN es out =
      out ++ (es.filterMap (inversion? edges)).take (topN - out.length) := by
  induction es generalizing out with
  | nil => simp [reportLoop]
  | cons e es ih =>
      rw [reportLoop, List.filterMap_cons, inversion?]
      by_cases hfull : topN ≤ out.length
      · rw [if_pos hfull, Nat.sub_eq_zero_of_le hfull, List.take_zero, List.append_nil]
      rw [if_neg hfull]
      split
      · exact ih out
      · cases edges.find? (isBack e) with
        | none => exact ih out
        | some f =>
            have hroom : topN - out.length = (topN - (out.length + 1)) + 1 := by omega
            dsimp only [Option.map_some]
            rw [ih, List.length_append, List.length_singleton, hroom, List.take_succ_cons,
              List.append_assoc, List.singleton_append]

theorem inversion?_eq_some {edges : List Edge} {e : Edge} {i : Inversion}
    (h : inversion? edges e = some i) :
    i.there = e ∧ e.pair.1 < e.pair.2 ∧ i.back ∈ edges ∧ i.back.pair = e.pair.swap := by
  rw [inversion?] at h
  split at h
  · cases h
  next hlt =>
    obtain ⟨f, hfind, rfl⟩ := Option.map_eq_some_iff.mp h
    have hback := List.find?_some hfind
    rw [isBack, Bool.and_eq_true, decide_eq_true_eq, decide_eq_true_eq] at hback
    exact ⟨rfl, UInt64.not_le.mp hlt, List.mem_of_find?_eq_some hfind, Prod.ext hback.1 hback.2⟩

/-- Every inversion is started by an edge of its own. -/
theorem sublist_pairs (edges es : List Edge) :
    ((es.filterMap (inversion? edges)).map fun i => i.there.pair).Sublist (Pairs es) := by
  induction es with
  | nil => exact .slnil
  | cons e es ih =>
      rw [List.filterMap_cons]
      cases hinv : inversion? edges e with
      | none => exact ih.cons e.pair
      | some i =>
          rw [List.map_cons, (inversion?_eq_some hinv).1]
          exact ih.cons_cons e.pair

/-- **Inversions are reported.**  In every interleaving of the calls, and in whatever order the map
gives its entries: no pair is reported twice; a reported pair was taken in both orders, and no
oftener counted than called; and if the report is below its limit and the map had room, every pair
that was taken in both orders is in it. -/
theorem deadlocks_reported {P : Type} [DecidableEq P] {σ : System P} (h : Reachable σ)
    {entries : List Edge} (hentries : entries.Perm σ.map) (topN : Int) :
    let report := spnlDumpDeadlocks entries topN
    (report.map fun i => i.there.pair).Nodup ∧
    (∀ i ∈ report, i.there.pair.1 < i.there.pair.2 ∧ i.back.pair = i.there.pair.swap ∧
      ∀ e ∈ [i.there, i.back],
        e.pair ∈ σ.finished ∧ e.count.toNat ≤ σ.finished.count e.pair) ∧
    (report.length < limit topN → σ.finished.dedup.length ≤ maxEntries →
      ∀ a b, a < b → (a, b) ∈ σ.finished → (b, a) ∈ σ.finished →
        (a, b) ∈ report.map fun i => i.there.pair) := by
  intro report
  have hs := sound_of_reachable h
  generalize hedges : (entries.filter fun e => e.pair.1 ≠ e.pair.2) = edges
  have hreport : report = (edges.filterMap (inversion? edges)).take (limit topN) := by
    show spnlDumpDeadlocks entries topN = _
    rw [spnlDumpDeadlocks, hedges, reportLoop_eq]
    rfl
  have hmem : ∀ e ∈ edges, e ∈ σ.map := fun e he =>
    hentries.subset (List.mem_of_mem_filter (hedges ▸ he))
  have hinv : ∀ i ∈ report, ∃ e ∈ edges, inversion? edges e = some i := fun i hi =>
    List.mem_filterMap.mp (List.mem_of_mem_take (hreport ▸ hi))
  refine ⟨?_, fun i hi => ?_, fun hbelow hfew a b hlt hab hba => ?_⟩
  · have hnodup : (Pairs edges).Nodup := by
      rw [← hedges]
      exact ((hentries.map _).nodup_iff.mpr hs.nodup).sublist (List.filter_sublist.map _)
    rw [hreport]
    exact (hnodup.sublist (sublist_pairs edges edges)).sublist ((List.take_sublist _ _).map _)
  · obtain ⟨e, he, heq⟩ := hinv i hi
    obtain ⟨rfl, hlt, hback, hswap⟩ := inversion?_eq_some heq
    refine ⟨hlt, hswap, ?_⟩
    have hcounted : ∀ e ∈ edges, e.pair ∈ σ.finished ∧
        e.count.toNat ≤ σ.finished.count e.pair := fun e he =>
      (hs.counted e (hmem e he)).imp_left List.count_pos_iff.mp
    exact List.forall_mem_cons.mpr ⟨hcounted _ he, List.forall_mem_singleton.mpr (hcounted _ hback)⟩
  · have hedge : ∀ k : Pair, k ∈ σ.finished → k.1 ≠ k.2 → ∃ e ∈ edges, e.pair = k := by
      intro k hk hne
      obtain ⟨e, he, rfl⟩ := List.mem_map.mp ((mem_map_iff h hfew k).mpr hk)
      exact ⟨e, hedges ▸ List.mem_filter.mpr ⟨hentries.symm.subset he, decide_eq_true hne⟩, rfl⟩
    have hne : a ≠ b := UInt64.ne_of_lt hlt
    obtain ⟨e, he, hea⟩ := hedge (a, b) hab hne
    obtain ⟨f, hf, hfb⟩ := hedge (b, a) hba hne.symm
    obtain ⟨g, hg⟩ : ∃ g, edges.find? (isBack e) = some g :=
      Option.isSome_iff_exists.mp (List.find?_isSome.mpr ⟨f, hf, by simp [isBack, hea, hfb]⟩)
    have heq : inversion? edges e = some ⟨e, g⟩ := by
      rw [inversion?, if_neg (by rw [hea]; exact UInt64.not_le.mpr hlt), hg, Option.map_some]
    have hall : report = edges.filterMap (inversion? edges) := by
      rw [hreport, List.take_eq_self_iff]
      rw [hreport, List.length_take] at hbelow
      omega
    exact List.mem_map.mpr ⟨⟨e, g⟩, hall ▸ List.mem_filterMap.mpr ⟨e, he, heq⟩, hea⟩

/-- Two processors that take two locks in different orders, both behind the lookup before either
inserts. -/
theorem deadlocks_reported_two :
    ∃ σ : System Bool, Reachable σ ∧ σ.finished = [(1, 2), (2, 1)] ∧
      (1, 2) ∈ (spnlDumpDeadlocks σ.map 2).map fun i => i.there.pair := by
  have hmiss : Reachable (P := Bool) _ :=
    (Relation.ReflTransGen.refl.tail (.miss (p := true) (k := (1, 2)) rfl (by decide))).tail
      (.miss (p := false) (k := (2, 1)) rfl (by decide))
  have hrun := (hmiss.tail (.insert (p := true) rfl)).tail (.insert (p := false) rfl)
  refine ⟨_, hrun, rfl, ?_⟩
  exact (deadlocks_reported hrun (.refl _) 2).2.2 (by decide) (by decide) 1 2 (by decide)
    (by decide) (by decide)

end SpinelEbpf.Runtime.Deadlocks

import SpinelEbpf.Support.CString

/-!
# Runtime — the frame cache

A dump names the frames of thousands of stacks, and `_spnl_frame_cached` keeps the names it has
looked up in an open-addressed table under the process and the address.  An address of zero marks an
empty place, so the address zero itself is never kept; with every place taken the frame is named
directly.

The table never holds anything but what naming directly gives (`Sound`): no two addresses are told
apart by where they stand, only by what is written there.  So every answer of every run is the
direct one (`frame_cache_transparent`).
-/

namespace SpinelEbpf.Runtime

/-- A C string, its bytes before the terminator. -/
abbrev CText := List UInt8

/-- `_spnl_folded_frame`: the frame without its offset, from `+0x` to the next blank. -/
def spnlFoldedFrame (s : CText) : CText :=
  match CString.strstr [43, 48, 120] s with
  | none => s
  | some (before, after) => before ++ after.dropWhile (· ≠ 32)

/-- An entry of the table. -/
structure Entry where
  pid : UInt32
  pc : UInt64
  frame : CText
  deriving DecidableEq, Repr

/-- `struct _spnl_frame_cache`; `e` is `none` for a null pointer. -/
structure SpnlFrameCache where
  n : Nat
  pos : 0 < n
  int : n < 2 ^ 31
  e : Option (Vector Entry n)

/-- `calloc` of a table. -/
def SpnlFrameCache.empty (n : Nat) (pos : 0 < n) (int : n < 2 ^ 31) : SpnlFrameCache :=
  ⟨n, pos, int, some (Vector.replicate n ⟨0, 0, []⟩)⟩

section

variable (spnlSymUser : UInt32 → UInt64 → CText)

/-- The frame as it is named without the table. -/
def frameName (pid : UInt32) (pc : UInt64) : CText := spnlFoldedFrame (spnlSymUser pid pc)

/-- Where the search for an address starts. -/
def startIndex (n : Nat) (pid : UInt32) (pc : UInt64) : Nat :=
  ((pc >>> 4) ^^^ pid.toUInt64).toNat % n

/-- The place of a turn; the sum is an `unsigned`. -/
def slot (n : Nat) (pos : 0 < n) (idx probe : Nat) : Fin n :=
  ⟨(idx + probe) % 2 ^ 32 % n, Nat.mod_lt _ pos⟩

/-- The loop of `_spnl_frame_cached`, with the turns left. -/
def probeLoop {n : Nat} (pos : 0 < n) (pid : UInt32) (pc : UInt64) (idx : Nat) :
    Nat → Nat → Vector Entry n → CText × Vector Entry n
  | 0, _, e => (frameName spnlSymUser pid pc, e)
  | left + 1, probe, e =>
      let j := slot n pos idx probe
      if e[j].pc = pc ∧ e[j].pid = pid then (e[j].frame, e)
      else if e[j].pc = 0 then
        let frame := frameName spnlSymUser pid pc
        (frame, e.set j ⟨pid, pc, frame⟩)
      else probeLoop pos pid pc idx left (probe + 1) e

/-- `_spnl_frame_cached`: the text it returns, and the cache after it. -/
def spnlFrameCached (c : SpnlFrameCache) (pid : UInt32) (pc : UInt64) : CText × SpnlFrameCache :=
  match c.e with
  | none   => (frameName spnlSymUser pid pc, c)
  | some e =>
      if pc = 0 then (frameName spnlSymUser pid pc, c)
      else
        let (frame, e) := probeLoop spnlSymUser c.pos pid pc (startIndex c.n pid pc) c.n 0 e
        (frame, { c with e := some e })

/-- The answers to a sequence of queries. -/
def answers : SpnlFrameCache → List (UInt32 × UInt64) → List CText
  | _, [] => []
  | c, (pid, pc) :: qs =>
      let (frame, c) := spnlFrameCached spnlSymUser c pid pc
      frame :: answers c qs

/-- Every taken place has the name of its frame. -/
def Sound {n : Nat} (e : Vector Entry n) : Prop :=
  ∀ i (hi : i < n), e[i].pc ≠ 0 → e[i].frame = frameName spnlSymUser e[i].pid e[i].pc

end

section

variable {spnlSymUser : UInt32 → UInt64 → CText}

theorem Sound.set {n : Nat} {e : Vector Entry n} (h : Sound spnlSymUser e) (j : Fin n)
    (pid : UInt32) (pc : UInt64) :
    Sound spnlSymUser (e.set j ⟨pid, pc, frameName spnlSymUser pid pc⟩) := by
  intro i hi hpc
  by_cases hij : j.val = i
  · subst hij
    rw [Vector.getElem_set_self]
  · rw [Vector.getElem_set_ne _ _ hij] at hpc ⊢
    exact h i hi hpc

/-- **One search.**  Whatever place it ends at, the answer is the direct one and the table stays
sound. -/
theorem probeLoop_sound {n : Nat} {pos : 0 < n} {pid : UInt32} {pc : UInt64} (hpc : pc ≠ 0)
    {idx : Nat} (left probe : Nat) {e : Vector Entry n} (h : Sound spnlSymUser e) :
    (probeLoop spnlSymUser pos pid pc idx left probe e).1 = frameName spnlSymUser pid pc ∧
      Sound spnlSymUser (probeLoop spnlSymUser pos pid pc idx left probe e).2 := by
  induction left generalizing probe with
  | zero => exact ⟨rfl, h⟩
  | succ left ih =>
      rw [probeLoop]
      dsimp only
      split
      · rename_i hhit
        obtain ⟨hpc', rfl⟩ := hhit
        have hframe := h _ (slot n pos idx probe).isLt (by exact hpc' ▸ hpc)
        refine ⟨?_, h⟩
        rw [← hpc']
        exact hframe
      · split
        · exact ⟨rfl, h.set _ pid pc⟩
        · exact ih (probe + 1)

/-- Every taken place of the cache has the name of its frame. -/
def SpnlFrameCache.Sound (spnlSymUser : UInt32 → UInt64 → CText) (c : SpnlFrameCache) : Prop :=
  ∀ e, c.e = some e → Runtime.Sound spnlSymUser e

/-- **One query.** -/
theorem spnlFrameCached_sound {c : SpnlFrameCache} (h : c.Sound spnlSymUser) (pid : UInt32)
    (pc : UInt64) :
    (spnlFrameCached spnlSymUser c pid pc).1 = frameName spnlSymUser pid pc ∧
      (spnlFrameCached spnlSymUser c pid pc).2.Sound spnlSymUser := by
  cases he : c.e with
  | none =>
      simp only [spnlFrameCached, he]
      exact ⟨trivial, h⟩
  | some e =>
      by_cases hpc : pc = 0
      · simp only [spnlFrameCached, he, if_pos hpc]
        exact ⟨trivial, h⟩
      · simp only [spnlFrameCached, he, if_neg hpc]
        obtain ⟨hframe, hsound⟩ := probeLoop_sound hpc c.n 0 (h e he)
        refine ⟨hframe, fun e' he' => ?_⟩
        cases he'
        exact hsound

/-- Every run from a sound cache answers as if there was none. -/
theorem answers_of_sound {c : SpnlFrameCache} (h : c.Sound spnlSymUser)
    (qs : List (UInt32 × UInt64)) :
    answers spnlSymUser c qs = qs.map fun q => frameName spnlSymUser q.1 q.2 := by
  induction qs generalizing c with
  | nil => rfl
  | cons q qs ih =>
      obtain ⟨pid, pc⟩ := q
      obtain ⟨hframe, hsound⟩ := spnlFrameCached_sound h pid pc
      rw [answers, List.map_cons]
      dsimp only
      rw [hframe, ih hsound]

theorem replicate_sound (n : Nat) : Sound spnlSymUser (Vector.replicate n ⟨0, 0, []⟩) := by
  intro i hi hpc
  rw [Vector.getElem_replicate] at hpc
  exact absurd rfl hpc

theorem empty_sound (n : Nat) (pos : 0 < n) (int : n < 2 ^ 31) :
    (SpnlFrameCache.empty n pos int).Sound spnlSymUser := by
  intro e he
  cases he
  exact replicate_sound n

end

/-- **The frame cache is transparent.**  From an empty table of any size, every query of every
sequence is answered with the text that naming the frame directly gives. -/
theorem frame_cache_transparent (spnlSymUser : UInt32 → UInt64 → CText) (n : Nat) (pos : 0 < n)
    (int : n < 2 ^ 31) (qs : List (UInt32 × UInt64)) :
    answers spnlSymUser (SpnlFrameCache.empty n pos int) qs =
      qs.map fun q => spnlFoldedFrame (spnlSymUser q.1 q.2) :=
  answers_of_sound (empty_sound n pos int) qs

/-- `f+0x10` and the address as one byte. -/
def oneByteName (_ : UInt32) (pc : UInt64) : CText := [102, 43, 48, 120, 49, 48, 32, pc.toUInt8]

/-- A table of one place: a frame, another that finds it taken, the first again, and zero. -/
theorem frame_cache_transparent_full :
    answers oneByteName (SpnlFrameCache.empty 1 Nat.one_pos (by decide))
        [(7, 65), (7, 66), (7, 65), (7, 0)] =
      [[102, 32, 65], [102, 32, 66], [102, 32, 65], [102, 32, 0]] :=
  frame_cache_transparent oneByteName 1 Nat.one_pos (by decide) [(7, 65), (7, 66), (7, 65), (7, 0)]

end SpinelEbpf.Runtime

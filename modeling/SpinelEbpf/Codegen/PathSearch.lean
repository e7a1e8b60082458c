import SpinelEbpf.Codegen.PathMatch
import SpinelEbpf.Support.Outcome

/-!
# Codegen — searching a path

`path_contains` looks for a literal anywhere in a path.  The generated code reads the path into a
scratch buffer of 4096 bytes, which keeps what it held after the path's NUL, and calls a callback
for the offsets 0 to 4095 in turn.  The callback stops the search when the window would pass the
end of the path, and when the literal is found; its indices are masked to the buffer.

`search_tracks` is what a run of rounds has decided, `path_contains_exact` that the search as a
whole is the question whether the literal occurs.
-/

namespace SpinelEbpf.Codegen
open Outcome

/-! ### The generated code -/

/-- The generated callback: the literal's length and the tests `buf[(i + j) & 4095] == c`. -/
structure SearchCode where
  len : Nat
  byteTests : List (Nat × Int)
  deriving DecidableEq, Repr

/-- `cc_emit_path_contains`. -/
def ccEmitPathContains (lit : CString) : Except String SearchCode :=
  if lit.len = 0 then .error "path substring compare: empty path literal"
  else if ccPathEqMax < lit.len then
    .error "path substring compare: path literal too long (substr cap is CC_PATH_EQ_MAX)"
  else .ok ⟨lit.len, lit.bytes.zipIdx.map fun (b, i) => (i, (b.toNat : Int))⟩

/-- The size of the scratch buffer, and the number of callbacks asked for. -/
def pathScratch : Nat := 4096

/-- `struct pc_ctx`. -/
structure PcCtx where
  plen : Int
  found : Int
  deriving DecidableEq, Repr

namespace SearchCode

/-- `(i + j) & 4095`, with `i` and `j` of 32 bits. -/
def index (i j : Nat) : Nat := (i + j) % 2 ^ 32 &&& 4095

/-- `m`, after the tests of the window at `i`. -/
def window (s : SearchCode) (buf : Nat → BitVec 8) (i : Nat) : Int :=
  s.byteTests.foldl (fun m t => if m ≠ 0 ∧ (buf (index i t.1)).toInt = t.2 then 1 else 0) 1

/-- The callback; a return value other than zero stops the loop. -/
def callback (s : SearchCode) (buf : Nat → BitVec 8) (i : Nat) (c : PcCtx) :
    Outcome Unit Unit × PcCtx :=
  if (i : Int) + s.len > c.plen then (.exit (), c)
  else if s.window buf i ≠ 0 then (.exit (), { c with found := 1 })
  else (.ok (), c)

/-- The call site. -/
def onPath (s : SearchCode) (error : Nat) (old : Nat → BitVec 8) (path : Option CString) : Int :=
  let r := bpfDPath error old pathScratch path
  if r.1 > s.len then
    (repeatFrom (s.callback r.2) pathScratch 0 ⟨r.1 - 1, 0⟩).2.found
  else 0

end SearchCode

/-! ### What the search decides -/

/-- A masked index inside the buffer is the index. -/
theorem SearchCode.index_eq {i j : Nat} (h : i + j < pathScratch) : index i j = i + j := by
  unfold pathScratch at h
  rw [index, Nat.mod_eq_of_lt (by omega), show 4095 = 2 ^ 12 - 1 from rfl,
    Nat.and_two_pow_sub_one_eq_mod, Nat.mod_eq_of_lt h]

/-- The literal stands in the buffer at `i`. -/
def StandsAt (lit : CString) (buf : Nat → BitVec 8) (i : Nat) : Prop :=
  ∀ j, j < lit.len → buf (i + j) = lit.bytes.getD j 0

section

variable {lit : CString} {s : SearchCode} {buf : Nat → BitVec 8}

theorem ccEmitPathContains_ok (hs : ccEmitPathContains lit = .ok s) :
    s = ⟨lit.len, lit.bytes.zipIdx.map fun (b, i) => (i, (b.toNat : Int))⟩ := by
  unfold ccEmitPathContains at hs
  split at hs
  · cases hs
  split at hs
  · cases hs
  exact (Except.ok.inj hs).symm

/-- A window inside the buffer. -/
theorem window_ne_zero (hs : ccEmitPathContains lit = .ok s) (hascii : Ascii lit) {i : Nat}
    (hi : i + lit.len ≤ pathScratch) : s.window buf i ≠ 0 ↔ StandsAt lit buf i := by
  obtain rfl := ccEmitPathContains_ok hs
  have hone := foldl_and_eq_one (fun t : Nat × Int => (buf (SearchCode.index i t.1)).toInt = t.2)
    (lit.bytes.zipIdx.map fun (b, i) => (i, (b.toNat : Int))) 1 (.inr rfl)
  have hbit := foldl_and_bit (fun t : Nat × Int => (buf (SearchCode.index i t.1)).toInt = t.2)
    (lit.bytes.zipIdx.map fun (b, i) => (i, (b.toNat : Int))) 1 (.inr rfl)
  have hstands : StandsAt lit buf i ↔
      ∀ j, j < lit.len → buf (SearchCode.index i j) = lit.bytes.getD j 0 := by
    refine forall₂_congr fun j hj => ?_
    rw [SearchCode.index_eq (by omega)]
  rw [byteTests_iff lit fun j => buf (SearchCode.index i j)] at hone
  rw [hstands]
  constructor
  · intro h
    exact (hone.mp (hbit.resolve_left h)).2.2
  · intro h
    exact ne_of_eq_of_ne (hone.mpr ⟨rfl, hascii, h⟩) one_ne_zero

open scoped Classical in
/-- **What the rounds decide.**  `n` rounds from offset `i` find the literal exactly when it stands
at one of those offsets, inside the path.  Stopping at a window past the end skips only windows
that lie past it too. -/
theorem search_tracks (hs : ccEmitPathContains lit = .ok s) (hascii : Ascii lit) {plen : Nat}
    (hplen : plen ≤ pathScratch) (n i : Nat) :
    (repeatFrom (s.callback buf) n i ⟨plen, 0⟩).2.found =
      if ∃ k, i ≤ k ∧ k < i + n ∧ k + lit.len ≤ plen ∧ StandsAt lit buf k then 1 else 0 := by
  have hlen : s.len = lit.len := by rw [ccEmitPathContains_ok hs]
  induction n generalizing i with
  | zero =>
      have hnone : ¬ ∃ k, i ≤ k ∧ k < i + 0 ∧ k + lit.len ≤ plen ∧ StandsAt lit buf k := by
        rintro ⟨k, hik, hki, -⟩
        omega
      rw [if_neg hnone]
      rfl
  | succ n ih =>
      rw [repeatFrom, SearchCode.callback, hlen]
      by_cases hpast : (i : Int) + lit.len > plen
      · have hnone : ¬ ∃ k, i ≤ k ∧ k < i + (n + 1) ∧ k + lit.len ≤ plen ∧ StandsAt lit buf k := by
          rintro ⟨k, hik, -, hk, -⟩
          omega
        rw [if_pos hpast, if_neg hnone]
        rfl
      · have hin : i + lit.len ≤ plen := by omega
        rw [if_neg hpast]
        by_cases hhit : s.window buf i ≠ 0
        · have hat := (window_ne_zero hs hascii (by omega)).mp hhit
          rw [if_pos hhit, if_pos ⟨i, le_refl i, by omega, hin, hat⟩]
          rfl
        · have hmiss : ¬ StandsAt lit buf i :=
            fun h => hhit ((window_ne_zero hs hascii (by omega)).mpr h)
          rw [if_neg hhit, andThen_ok, ih (i + 1)]
          refine if_congr ⟨?_, ?_⟩ rfl rfl
          · rintro ⟨k, hik, hkn, hk, hat⟩
            exact ⟨k, by omega, by omega, hk, hat⟩
          · rintro ⟨k, hik, hkn, hk, hat⟩
            have hne : k ≠ i := by
              rintro rfl
              exact hmiss hat
            exact ⟨k, by omega, by omega, hk, hat⟩

end

/-! ### The search as a whole -/

/-- An occurrence, by its offset. -/
theorem isInfix_iff_offset (p s : List (BitVec 8)) :
    p <:+: s ↔ ∃ k, k + p.length ≤ s.length ∧ ∀ j, j < p.length → s.getD (k + j) 0 = p.getD j 0 := by
  constructor
  · rintro ⟨front, back, rfl⟩
    refine ⟨front.length, by simp, fun j hj => ?_⟩
    rw [List.append_assoc, List.getD_append_right _ _ _ _ (by omega), Nat.add_sub_cancel_left,
      List.getD_append _ _ _ _ hj]
  · rintro ⟨k, hk, h⟩
    have hprefix : p <+: s.drop k := by
      refine (isPrefix_iff_getD ..).mpr ⟨by rw [List.length_drop]; omega, fun j hj => ?_⟩
      rw [List.getD_eq_getElem?_getD, List.getElem?_drop, ← List.getD_eq_getElem?_getD, h j hj]
    exact hprefix.isInfix.trans (List.drop_suffix k s).isInfix

/-- In a buffer that holds the path, an occurrence inside the path is one in the path. -/
theorem standsAt_holding {lit path : CString} {old : Nat → BitVec 8} {k : Nat}
    (hk : k + lit.len ≤ path.len) :
    StandsAt lit (holding path.bytes old) k ↔
      ∀ j, j < lit.bytes.length → path.bytes.getD (k + j) 0 = lit.bytes.getD j 0 := by
  refine forall₂_congr fun j hj => ?_
  have hin : k + j < path.bytes.length := by
    have : j < lit.len := hj
    have : path.len = path.bytes.length := rfl
    omega
  rw [holding_of_lt hin]

/-- **Searching a path is exact.**  A literal of 1 to 256 bytes below 128 is accepted, and its
search yields 1 on a path of at most 4095 bytes exactly when the literal occurs in it, whatever
the scratch buffer held after the path; otherwise it yields 0. -/
theorem path_contains_exact (lit path : CString) (hlo : 1 ≤ lit.len) (hhi : lit.len ≤ ccPathEqMax)
    (hascii : ∀ b ∈ lit.bytes, b.toNat < 128) (hpath : path.len ≤ 4095) :
    ∃ s, ccEmitPathContains lit = .ok s ∧ ∀ error old,
      s.onPath error old (some path) = if lit.bytes <:+: path.bytes then 1 else 0 := by
  obtain ⟨s, hs⟩ : ∃ s, ccEmitPathContains lit = .ok s := by
    unfold ccEmitPathContains
    rw [if_neg (by omega), if_neg (by omega)]
    exact ⟨_, rfl⟩
  refine ⟨s, hs, fun error old => ?_⟩
  have hlen : s.len = lit.len := by rw [ccEmitPathContains_ok hs]
  have hread : bpfDPath error old pathScratch (some path) =
      ((path.len : Int) + 1, holding path.bytes old) :=
    if_pos (show path.len + 1 ≤ 4096 by omega)
  rw [SearchCode.onPath, hread, hlen]
  dsimp only
  by_cases hfits : lit.len ≤ path.len
  · rw [if_pos (by omega), add_sub_cancel_right,
      search_tracks hs hascii (show path.len ≤ 4096 by omega)]
    classical
    refine if_congr ?_ rfl rfl
    rw [isInfix_iff_offset]
    constructor
    · rintro ⟨k, -, -, hk, hat⟩
      exact ⟨k, hk, (standsAt_holding hk).mp hat⟩
    · rintro ⟨k, hk, hat⟩
      have hk' : k + lit.len ≤ path.len := hk
      refine ⟨k, Nat.zero_le k, ?_, hk', (standsAt_holding hk').mpr hat⟩
      rw [pathScratch]
      omega
  · have hnone : ¬ lit.bytes <:+: path.bytes := fun h => hfits h.length_le
    rw [if_neg (by omega), if_neg hnone]

/-- The literal `/s` in the path `/usr/s`, with a scratch buffer full of slashes. -/
theorem path_contains_slash_s :
    ∃ s, ccEmitPathContains ⟨[0x2f, 0x73], by decide⟩ = .ok s ∧
      s.onPath 0 (fun _ => 0x2f) (some ⟨[0x2f, 0x75, 0x73, 0x72, 0x2f, 0x73], by decide⟩) = 1 := by
  obtain ⟨s, hs, h⟩ := path_contains_exact ⟨[0x2f, 0x73], by decide⟩
    ⟨[0x2f, 0x75, 0x73, 0x72, 0x2f, 0x73], by decide⟩ (by decide) (by decide) (by decide) (by decide)
  exact ⟨s, hs, (h 0 _).trans (if_pos (by decide))⟩

end SpinelEbpf.Codegen

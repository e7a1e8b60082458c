import SpinelEbpf.Otlp.RequestTree
import SpinelEbpf.Support.Json

/-!
# Otlp — two readers of a traceparent

The span of a request adopts the trace and the parent of its `traceparent` header.  The header is
read in two places: `otlp_span_root_from_traceparent` reads it for the request tree (`rootIds`),
`parse_traceparent` for the spans of a file descriptor (`parseTraceparent`).

Both want two dashes around the ids, hex digits in them, and no id that is zero.  The second one
also skips blanks before the header and wants a version of two hex digits, the first does neither.
So they agree on every header that starts with two hex digits; on another one they agree if both
refuse it (`readers_agree_iff`).
-/

namespace SpinelEbpf.Otlp.Traceparent
open Otlp

/-- A C string, its bytes before the terminator. -/
abbrev Text := List UInt8

/-! ### The two readers -/

/-- `hexval`. -/
def hexval (c : UInt8) : Option UInt8 := (Json.hexValue c).map UInt8.ofNat

/-- `hexdec`: `n` bytes of two digits each. -/
def hexdec : Nat → Text → Option (List UInt8)
  | 0, _ => some []
  | n + 1, a :: b :: s => do
      let hi ← hexval a
      let lo ← hexval b
      let bytes ← hexdec n s
      some ((hi <<< 4 ||| lo) :: bytes)
  | _ + 1, _          => none

/-- `parse_hex`, which refuses zero. -/
def parseHex (n : Nat) (s : Text) : Option (List UInt8) := do
  let bytes ← hexdec n s
  if bytes.any (· ≠ 0) then some bytes else none

/-- The dashes of a header. -/
def HasDashes (tp : Text) : Prop := tp[2]? = some 45 ∧ tp[35]? = some 45 ∧ tp[52]? = some 45

instance (tp : Text) : Decidable (HasDashes tp) := inferInstanceAs (Decidable (_ ∧ _))

/-- The trace id and the parent id that `otlp_span_root_from_traceparent` adopts. -/
def rootIds (tp : Text) : Option (List UInt8 × List UInt8) :=
  if tp.length ≥ 55 ∧ HasDashes tp then do
    let tid ← parseHex 16 (tp.drop 3)
    let pid ← parseHex 8 (tp.drop 36)
    some (tid, pid)
  else none

def isBlank (c : UInt8) : Bool := c = 32 || c = 9

/-- `while (*tp == ' ' || *tp == '\t') tp++`. -/
def skipBlanks (tp : Text) : Text := tp.dropWhile isBlank

/-- A version of two hex digits. -/
def hasVersion : Text → Bool
  | a :: b :: _ => (hexval a).isSome && (hexval b).isSome
  | _ => false

/-- The part of `parse_traceparent` behind the blanks. -/
def parseAt (tp : Text) : Option (List UInt8 × List UInt8) :=
  if tp.length < 55 then none
  else if ¬ HasDashes tp then none
  else if ¬ hasVersion tp then none
  else do
    let traceId ← hexdec 16 (tp.drop 3)
    let parent ← hexdec 8 (tp.drop 36)
    if traceId.all (· = 0) || parent.all (· = 0) then none
    else some (traceId, parent)

/-- `parse_traceparent`. -/
def parseTraceparent (tp : Text) : Option (List UInt8 × List UInt8) := parseAt (skipBlanks tp)

/-- The two readers agree on a header: the span adopts a parent exactly if the other reader accepts,
and then the ids of that reader. -/
def Agree (tp : Text) : Prop :=
  ∀ (s : GenericSpan) (seed : UInt64),
    let root := (RequestTree.otlpSpanRootFromTraceparent s (rootIds tp) seed).1
    (root.hasParent = true ↔ (parseTraceparent tp).isSome = true) ∧
      ∀ traceId parent, parseTraceparent tp = some (traceId, parent) →
        root.traceId = traceId ∧ root.parentSpanId = parent

/-! ### One in terms of the other -/

theorem hexdec_any {n : Nat} {s : Text} :
    parseHex n s = (hexdec n s).bind fun bytes => if bytes.all (· = 0) then none else some bytes := by
  unfold parseHex
  cases hexdec n s with
  | none => rfl
  | some bytes =>
      have hall : bytes.any (· ≠ 0) = !bytes.all (· = 0) := by
        rw [List.not_all_eq_any_not]
        simp
      simp only [Option.bind_eq_bind, Option.bind_some, hall]
      cases bytes.all (· = 0) <;> rfl

/-- Both refuse the same ids. -/
theorem ids_eq (a b : Text) :
    (do
      let traceId ← hexdec 16 a
      let parent ← hexdec 8 b
      if traceId.all (· = 0) || parent.all (· = 0) then none else some (traceId, parent)) =
    (do
      let tid ← parseHex 16 a
      let pid ← parseHex 8 b
      some (tid, pid)) := by
  rw [hexdec_any, hexdec_any]
  cases hexdec 16 a with
  | none => rfl
  | some tid =>
      cases hexdec 8 b with
      | none =>
          simp only [Option.bind_eq_bind, Option.bind_some, Option.bind_none]
          cases tid.all (· = 0) <;> rfl
      | some pid =>
          simp only [Option.bind_eq_bind, Option.bind_some]
          cases tid.all (· = 0) <;> cases pid.all (· = 0) <;> rfl

/-- **Behind the blanks the readers differ in the version only.** -/
theorem parseAt_eq (tp : Text) : parseAt tp = if hasVersion tp then rootIds tp else none := by
  unfold parseAt rootIds
  rw [ids_eq]
  by_cases hver : hasVersion tp = true
  · rw [if_pos hver, if_neg (not_not.mpr hver)]
    by_cases hform : tp.length ≥ 55 ∧ HasDashes tp
    · rw [if_pos hform, if_neg (by omega), if_neg (not_not.mpr hform.2)]
    · rw [if_neg hform]
      split
      · rfl
      · rw [if_pos fun hdash => hform ⟨by omega, hdash⟩]
  · rw [if_neg hver, if_pos hver, ite_self, ite_self]

/-! ### Well-formed headers -/

/-- A hex digit. -/
def IsHex (c : UInt8) : Prop := (hexval c).isSome = true

instance (c : UInt8) : Decidable (IsHex c) := inferInstanceAs (Decidable (_ = true))

/-- `n` digits of an id that is not zero. -/
def IsId (n : Nat) (s : Text) : Prop :=
  (∀ c ∈ s.take n, IsHex c) ∧ ∃ c ∈ s.take n, c ≠ 48

/-- From the dash behind the version on, the form of a header. -/
structure WellFormed (tp : Text) : Prop where
  long : 55 ≤ tp.length
  dashes : HasDashes tp
  traceId : IsId 32 (tp.drop 3)
  parentId : IsId 16 (tp.drop 36)

/-- A header starts with two hex digits. -/
def StartsHex (tp : Text) : Prop := ∃ a b rest, tp = a :: b :: rest ∧ IsHex a ∧ IsHex b

theorem hasVersion_iff (tp : Text) : hasVersion tp = true ↔ StartsHex tp := by
  constructor
  · intro h
    match tp, h with
    | a :: b :: rest, h =>
        rw [hasVersion, Bool.and_eq_true] at h
        exact ⟨a, b, rest, rfl, h.1, h.2⟩
  · rintro ⟨a, b, rest, rfl, ha, hb⟩
    rw [hasVersion, ha, hb]
    rfl

/-- A digit is zero exactly as the character, also in the high half of a byte. -/
theorem hexval_zero_iff {c v : UInt8} (h : hexval c = some v) :
    (v = 0 ↔ c = 48) ∧ (v <<< 4 = 0 ↔ c = 48) := by
  have hall : ∀ c : UInt8,
      ((hexval c).all fun v : UInt8 => (v = 0 ↔ c = 48) ∧ (v <<< 4 = 0 ↔ c = 48)) = true := by
    decide +kernel
  have hc := hall c
  rw [h] at hc
  exact of_decide_eq_true hc

theorem or_eq_zero_iff (a b : UInt8) : a ||| b = 0 ↔ a = 0 ∧ b = 0 := by
  rw [← UInt8.toBitVec_inj, ← UInt8.toBitVec_inj, ← UInt8.toBitVec_inj, UInt8.toBitVec_or,
    UInt8.toBitVec_zero, BitVec.or_eq_zero_iff]

/-- What `hexdec` reads. -/
theorem hexdec_spec {n : Nat} {s : Text} (hlen : 2 * n ≤ s.length) :
    match hexdec n s with
    | none       => ∃ c ∈ s.take (2 * n), ¬ IsHex c
    | some bytes => (∀ c ∈ s.take (2 * n), IsHex c) ∧
        (bytes.any (· ≠ 0) = true ↔ ∃ c ∈ s.take (2 * n), c ≠ 48) := by
  induction n generalizing s with
  | zero => simp [hexdec]
  | succ n ih =>
      match s, hlen with
      | a :: b :: s, hlen =>
          rw [List.length_cons, List.length_cons] at hlen
          have hrest := ih (show 2 * n ≤ s.length by omega)
          have htake : (a :: b :: s).take (2 * (n + 1)) = a :: b :: s.take (2 * n) := by
            rw [Nat.mul_succ, List.take_succ_cons, List.take_succ_cons]
          rw [htake, hexdec]
          cases ha : hexval a with
          | none => exact ⟨a, by simp, by simp [IsHex, ha]⟩
          | some hi =>
              cases hb : hexval b with
              | none => exact ⟨b, by simp, by simp [IsHex, hb]⟩
              | some lo =>
                  cases hn : hexdec n s with
                  | none =>
                      rw [hn] at hrest
                      obtain ⟨c, hc, hbad⟩ := hrest
                      exact ⟨c, by simp [hc], hbad⟩
                  | some bytes =>
                      rw [hn] at hrest
                      obtain ⟨hhex, hany⟩ := hrest
                      have hbyte : hi <<< 4 ||| lo = 0 ↔ a = 48 ∧ b = 48 := by
                        rw [or_eq_zero_iff, (hexval_zero_iff ha).2, (hexval_zero_iff hb).1]
                      simp only [Option.bind_eq_bind, Option.bind_some]
                      refine ⟨List.forall_mem_cons.mpr ⟨by simp [IsHex, ha],
                        List.forall_mem_cons.mpr ⟨by simp [IsHex, hb], hhex⟩⟩, ?_⟩
                      rw [List.any_cons, Bool.or_eq_true, hany, decide_eq_true_iff, Ne, hbyte,
                        List.exists_mem_cons_iff, List.exists_mem_cons_iff]
                      tauto

theorem isSome_parseHex_iff {n : Nat} {s : Text} (hlen : 2 * n ≤ s.length) :
    (parseHex n s).isSome = true ↔ IsId (2 * n) s := by
  have hspec := hexdec_spec hlen
  unfold parseHex IsId
  cases hn : hexdec n s with
  | none =>
      rw [hn] at hspec
      obtain ⟨c, hc, hbad⟩ := hspec
      simp only [Option.bind_eq_bind, Option.bind_none, Option.isSome_none]
      refine ⟨fun h => ?_, fun h => absurd (h.1 c hc) hbad⟩
      cases h
  | some bytes =>
      rw [hn] at hspec
      simp only [Option.bind_eq_bind, Option.bind_some]
      split
      · rename_i hany
        exact ⟨fun _ => ⟨hspec.1, hspec.2.mp hany⟩, fun _ => rfl⟩
      · rename_i hany
        refine ⟨fun h => ?_, fun h => absurd (hspec.2.mpr h.2) hany⟩
        cases h

/-- **The headers that are adopted.** -/
theorem isSome_rootIds_iff (tp : Text) : (rootIds tp).isSome = true ↔ WellFormed tp := by
  unfold rootIds
  by_cases hform : tp.length ≥ 55 ∧ HasDashes tp
  · rw [if_pos hform]
    have htrace : (parseHex 16 (tp.drop 3)).isSome = true ↔ IsId 32 (tp.drop 3) :=
      isSome_parseHex_iff (by rw [List.length_drop]; omega)
    have hparent : (parseHex 8 (tp.drop 36)).isSome = true ↔ IsId 16 (tp.drop 36) :=
      isSome_parseHex_iff (by rw [List.length_drop]; omega)
    constructor
    · intro h
      obtain ⟨ids, hids⟩ := Option.isSome_iff_exists.mp h
      obtain ⟨tid, htid, hids⟩ := Option.bind_eq_some_iff.mp hids
      obtain ⟨pid, hpid, -⟩ := Option.bind_eq_some_iff.mp hids
      exact ⟨hform.1, hform.2, htrace.mp (by rw [htid]; rfl), hparent.mp (by rw [hpid]; rfl)⟩
    · intro h
      obtain ⟨tid, htid⟩ := Option.isSome_iff_exists.mp (htrace.mpr h.traceId)
      obtain ⟨pid, hpid⟩ := Option.isSome_iff_exists.mp (hparent.mpr h.parentId)
      rw [htid, hpid]
      rfl
  · rw [if_neg hform]
    refine ⟨fun h => ?_, fun h => absurd ⟨h.long, h.dashes⟩ hform⟩
    cases h

theorem rootIds_eq_none_iff (tp : Text) : rootIds tp = none ↔ ¬ WellFormed tp := by
  rw [← isSome_rootIds_iff, Bool.not_eq_true, Option.isSome_eq_false_iff, Option.isNone_iff_eq_none]

/-- **What `parse_traceparent` accepts**: behind the blanks, a version and the form of a header. -/
theorem parseTraceparent_eq (tp : Text) :
    parseTraceparent tp = if hasVersion (skipBlanks tp) then rootIds (skipBlanks tp) else none :=
  parseAt_eq (skipBlanks tp)

/-! ### Agreement -/

theorem agree_iff_eq (tp : Text) : Agree tp ↔ rootIds tp = parseTraceparent tp := by
  unfold Agree
  constructor
  · intro h
    obtain ⟨hiff, hids⟩ := h .zero 0
    cases hroot : rootIds tp with
    | none =>
        rw [hroot] at hiff
        cases hparse : parseTraceparent tp with
        | none => rfl
        | some ids =>
            rw [hparse] at hiff
            cases hiff.mpr rfl
    | some ids =>
        obtain ⟨tid, pid⟩ := ids
        rw [hroot] at hiff hids
        obtain ⟨ids, hparse⟩ := Option.isSome_iff_exists.mp (hiff.mp rfl)
        obtain ⟨rfl, rfl⟩ := hids ids.1 ids.2 hparse
        exact hparse.symm
  · intro h s seed
    rw [h]
    cases parseTraceparent tp with
    | none =>
        refine ⟨⟨fun hparent => ?_, fun hsome => ?_⟩, fun traceId parent hsome => ?_⟩
        · cases hparent
        · cases hsome
        · cases hsome
    | some ids =>
        refine ⟨⟨fun _ => rfl, fun _ => rfl⟩, fun traceId parent hsome => ?_⟩
        cases hsome
        exact ⟨rfl, rfl⟩

/-- A hex digit is no blank. -/
theorem IsHex.not_blank {c : UInt8} (h : IsHex c) : isBlank c = false := by
  have hall : ∀ c : UInt8, IsHex c → isBlank c = false := by decide +kernel
  exact hall c h

theorem StartsHex.skipBlanks {tp : Text} (h : StartsHex tp) : skipBlanks tp = tp := by
  obtain ⟨a, b, rest, rfl, ha, -⟩ := h
  rw [Traceparent.skipBlanks, List.dropWhile_cons, ha.not_blank]
  rfl

/-- A well-formed text that starts with a blank has no valid header behind its blanks: the dash
would stand where a digit of the trace id does, or first. -/
theorem not_both {tp : Text} (hblank : skipBlanks tp ≠ tp) (hwell : WellFormed tp)
    (hver : StartsHex (skipBlanks tp)) (hwell' : WellFormed (skipBlanks tp)) : False := by
  have hlong := hwell.long
  match tp, hlong with
  | c₀ :: c₁ :: c₂ :: c₃ :: rest, _ =>
      have hdash : c₂ = 45 := Option.some.inj hwell.dashes.1
      have hdigit : IsHex c₃ := hwell.traceId.1 c₃ List.mem_cons_self
      have hnothex : ¬ IsHex 45 := by decide
      by_cases h₀ : isBlank c₀ = true
      · by_cases h₁ : isBlank c₁ = true
        · have hskip : skipBlanks (c₀ :: c₁ :: c₂ :: c₃ :: rest) = c₂ :: c₃ :: rest := by
            rw [Traceparent.skipBlanks, List.dropWhile_cons_of_pos h₀,
              List.dropWhile_cons_of_pos h₁, hdash]
            rfl
          obtain ⟨a, b, tail, heq, ha, -⟩ := hver
          rw [hskip] at heq
          obtain ⟨rfl, -⟩ := List.cons.inj heq
          exact hnothex (hdash ▸ ha)
        · have hskip : skipBlanks (c₀ :: c₁ :: c₂ :: c₃ :: rest) = c₁ :: c₂ :: c₃ :: rest := by
            rw [Traceparent.skipBlanks, List.dropWhile_cons_of_pos h₀,
              List.dropWhile_cons_of_neg h₁]
          have hdash' := hwell'.dashes.1
          rw [hskip] at hdash'
          have hthird : c₃ = 45 := Option.some.inj hdash'
          exact hnothex (hthird ▸ hdigit)
      · exact hblank (by rw [Traceparent.skipBlanks, List.dropWhile_cons_of_neg h₀])

/-- **When the two readers agree**: on every header that starts with two hex digits, and on every
other text that neither has the form of a header from its third character on nor is a header behind
blanks. -/
theorem readers_agree_iff (tp : Text) :
    Agree tp ↔ StartsHex tp ∨
      (¬ WellFormed tp ∧ ¬ (StartsHex (skipBlanks tp) ∧ WellFormed (skipBlanks tp))) := by
  rw [agree_iff_eq, parseTraceparent_eq]
  by_cases hver : StartsHex tp
  · rw [hver.skipBlanks, if_pos ((hasVersion_iff tp).mpr hver)]
    exact ⟨fun _ => .inl hver, fun _ => rfl⟩
  rw [or_iff_right hver]
  by_cases hskip : StartsHex (skipBlanks tp) ∧ WellFormed (skipBlanks tp)
  · -- a header behind blanks is accepted by the second reader only
    have hne : skipBlanks tp ≠ tp := fun heq => hver (heq ▸ hskip.1)
    rw [if_pos ((hasVersion_iff _).mpr hskip.1)]
    refine ⟨fun heq => ?_, fun h => absurd hskip h.2⟩
    have hwell : WellFormed tp := by
      rw [← isSome_rootIds_iff, heq, isSome_rootIds_iff]
      exact hskip.2
    exact (not_both hne hwell hskip.1 hskip.2).elim
  · have hnone : (if hasVersion (skipBlanks tp) then rootIds (skipBlanks tp) else none) = none := by
      split
      · rename_i hver'
        rw [rootIds_eq_none_iff]
        exact fun hwell => hskip ⟨(hasVersion_iff _).mp hver', hwell⟩
      · rfl
    rw [hnone, rootIds_eq_none_iff]
    exact ⟨fun h => ⟨h, hskip⟩, fun h => h.1⟩

/-- A header with the ids 1, behind some characters. -/
def headerBehind (version : Text) : Text :=
  version ++ [45] ++ List.replicate 31 48 ++ [49] ++ [45] ++ List.replicate 15 48 ++ [49] ++ [45, 48, 49]

theorem readers_disagree :
    rootIds (headerBehind [122, 122]) = some (List.replicate 15 0 ++ [1], List.replicate 7 0 ++ [1]) ∧
      parseTraceparent (headerBehind [122, 122]) = none ∧
      rootIds (headerBehind [32, 48, 48]) = none ∧
      parseTraceparent (headerBehind [32, 48, 48]) =
        some (List.replicate 15 0 ++ [1], List.replicate 7 0 ++ [1]) ∧
      ¬ Agree (headerBehind [122, 122]) ∧ ¬ Agree (headerBehind [32, 48, 48]) := by
  have hversion : rootIds (headerBehind [122, 122]) ≠ parseTraceparent (headerBehind [122, 122]) := by
    decide
  have hblank : rootIds (headerBehind [32, 48, 48]) ≠ parseTraceparent (headerBehind [32, 48, 48]) := by
    decide
  refine ⟨by decide, by decide, by decide, by decide, ?_, ?_⟩
  · rwa [agree_iff_eq]
  · rwa [agree_iff_eq]

end SpinelEbpf.Otlp.Traceparent

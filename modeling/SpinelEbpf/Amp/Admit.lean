import SpinelEbpf.Amp.Capability

/-!
# Amp — admission

`probe_capability_admit` decides whether an attach point of the opened table can run a probe: the
firmware is the one the probe was checked against, the attach point exists, it provides every
context field that the probe reads, and the probe's cost is within its budget.

The fields are bits of four words.  One loop goes over the words that the entry publishes and one
over those behind them; both report the first bit of the first word that has one.  Together they are
one loop over four words, in which a word that was not published provides nothing (`loops_eq`), and
that loop finds the least missing bit (`missingLoop_spec`).
-/

namespace SpinelEbpf.Amp

/-! ### The function -/

/-- `struct probe_requirement`. -/
structure ProbeRequirement where
  attachId : UInt32
  contextFields : Vector UInt64 4
  costUnits : UInt32
  firmwareBuildId : Vector UInt8 20
  bindBuildId : Int32
  deriving DecidableEq, Repr

/-- `enum probe_admit_status`. -/
inductive ProbeAdmitStatus where
  | ok | noSuchAttach | missingField | overBudget | wrongFirmware
  deriving DecidableEq, Repr

/-- `m & (1ULL << b)`. -/
def hasBit (m : UInt64) (b : Nat) : Bool := m.toBitVec.getLsbD b

/-- A word of a bitmap. -/
def wordAt (v : Vector UInt64 4) (w : Nat) : UInt64 := v.toList.getD w 0

/-- A loop over words: the index of the first bit of the first word that is not zero. -/
def missingLoop (missing : Nat → UInt64) : List Nat → Option Nat
  | []      => none
  | w :: ws =>
      if missing w = 0 then missingLoop missing ws
      else some (w * 64 + ((List.range 64).find? (hasBit (missing w))).getD 0)

/-- The words that the entry publishes. -/
def publishedLoop (at' : ProbeAttachCapability) (req : ProbeRequirement) : Option Nat :=
  missingLoop (fun w => wordAt req.contextFields w &&& ~~~ wordAt at'.fieldBitmap w)
    (List.range (min 4 at'.fieldBitmapWords.toNat))

/-- The words behind them. -/
def unpublishedLoop (at' : ProbeAttachCapability) (req : ProbeRequirement) : Option Nat :=
  missingLoop (fun w => wordAt req.contextFields w)
    (List.range' at'.fieldBitmapWords.toNat (4 - at'.fieldBitmapWords.toNat))

/-- `probe_capability_admit`: the status and `*missing_field_id`. -/
def probeCapabilityAdmit (view : ProbeCapabilityView) (req : ProbeRequirement) :
    ProbeAdmitStatus × UInt32 :=
  if req.bindBuildId ≠ 0 ∧ req.firmwareBuildId ≠ view.hdr.firmwareBuildId then (.wrongFirmware, 0)
  else
    match (view.entries.take view.n.toNat).find? fun e => e.attachId = req.attachId with
    | none     => (.noSuchAttach, 0)
    | some at' =>
        match publishedLoop at' req with
        | some id => (.missingField, UInt32.ofNat id)
        | none    =>
            match unpublishedLoop at' req with
            | some id => (.missingField, UInt32.ofNat id)
            | none    =>
                if req.costUnits > at'.maxCycleBudget then (.overBudget, 0) else (.ok, 0)

/-! ### Bits -/

/-- The probe reads the field. -/
def Wanted (req : ProbeRequirement) (id : Nat) : Prop :=
  id < 256 ∧ hasBit (wordAt req.contextFields (id / 64)) (id % 64) = true

/-- The entry provides the field: its word is published and has the bit. -/
def Provided (e : ProbeAttachCapability) (id : Nat) : Prop :=
  id / 64 < e.fieldBitmapWords.toNat ∧ hasBit (wordAt e.fieldBitmap (id / 64)) (id % 64) = true

instance (req : ProbeRequirement) (id : Nat) : Decidable (Wanted req id) :=
  inferInstanceAs (Decidable (_ ∧ _))

instance (e : ProbeAttachCapability) (id : Nat) : Decidable (Provided e id) :=
  inferInstanceAs (Decidable (_ ∧ _))

theorem hasBit_and_not (a m : UInt64) {b : Nat} (hb : b < 64) :
    hasBit (a &&& ~~~ m) b = (hasBit a b && !hasBit m b) := by
  simp [hasBit, hb]

theorem eq_zero_of_hasBit {m : UInt64} (h : ∀ b < 64, hasBit m b = false) : m = 0 := by
  refine UInt64.toBitVec_inj.mp (BitVec.eq_of_getLsbD_eq fun b hb => ?_)
  rw [UInt64.toBitVec_zero, BitVec.getLsbD_zero]
  exact h b hb

/-- The first bit of a word. -/
theorem firstBit_spec {m : UInt64} (hm : m ≠ 0) :
    let b := ((List.range 64).find? (hasBit m)).getD 0
    b < 64 ∧ hasBit m b = true ∧ ∀ c < b, hasBit m c = false := by
  intro b
  cases hfind : (List.range 64).find? (hasBit m) with
  | none =>
      refine absurd (eq_zero_of_hasBit fun c hc => ?_) hm
      have := List.find?_eq_none.mp hfind c (List.mem_range.mpr hc)
      simpa using this
  | some c =>
      obtain ⟨hbit, hmem, hless⟩ := List.find?_range_eq_some.mp hfind
      have hb : b = c := by
        show ((List.range 64).find? (hasBit m)).getD 0 = c
        rw [hfind, Option.getD_some]
      rw [hb]
      exact ⟨List.mem_range.mp hmem, hbit, fun d hd => by simpa using hless d hd⟩

/-! ### The loops -/

theorem missingLoop_append (missing : Nat → UInt64) (ws vs : List Nat) :
    missingLoop missing (ws ++ vs) =
      (missingLoop missing ws).or (missingLoop missing vs) := by
  induction ws with
  | nil => rfl
  | cons w ws ih =>
      rw [List.cons_append, missingLoop, missingLoop, ih]
      split <;> rfl

theorem missingLoop_congr {f g : Nat → UInt64} {ws : List Nat} (h : ∀ w ∈ ws, f w = g w) :
    missingLoop f ws = missingLoop g ws := by
  induction ws with
  | nil => rfl
  | cons w ws ih =>
      obtain ⟨hw, hws⟩ := List.forall_mem_cons.mp h
      rw [missingLoop, missingLoop, hw, ih hws]

/-- What a word misses; a word that is not published provides nothing. -/
def missingWord (e : ProbeAttachCapability) (req : ProbeRequirement) (w : Nat) : UInt64 :=
  if w < e.fieldBitmapWords.toNat then wordAt req.contextFields w &&& ~~~ wordAt e.fieldBitmap w
  else wordAt req.contextFields w

/-- **The two loops are one.** -/
theorem loops_eq (e : ProbeAttachCapability) (req : ProbeRequirement) :
    (publishedLoop e req).or (unpublishedLoop e req) =
      missingLoop (missingWord e req) (List.range 4) := by
  have hpublished : publishedLoop e req =
      missingLoop (missingWord e req) (List.range (min 4 e.fieldBitmapWords.toNat)) := by
    refine missingLoop_congr fun w hw => ?_
    have hlt := List.mem_range.mp hw
    rw [missingWord, if_pos (by omega)]
  have hunpublished : unpublishedLoop e req = missingLoop (missingWord e req)
      (List.range' e.fieldBitmapWords.toNat (4 - e.fieldBitmapWords.toNat)) := by
    refine missingLoop_congr fun w hw => ?_
    have hle := (List.mem_range'_1.mp hw).1
    rw [missingWord, if_neg (by omega)]
  have hrange : List.range (min 4 e.fieldBitmapWords.toNat) ++
      List.range' e.fieldBitmapWords.toNat (4 - e.fieldBitmapWords.toNat) = List.range 4 := by
    rcases Nat.le_total 4 e.fieldBitmapWords.toNat with hle | hle
    · rw [Nat.min_eq_left hle, Nat.sub_eq_zero_of_le hle, List.range'_zero, List.append_nil]
    · rw [Nat.min_eq_right hle, List.range_eq_range', List.range_eq_range']
      have happend := List.range'_append_1 (s := 0) (m := e.fieldBitmapWords.toNat)
        (n := 4 - e.fieldBitmapWords.toNat)
      rwa [Nat.zero_add, Nat.add_sub_cancel' hle] at happend
  rw [hpublished, hunpublished, ← missingLoop_append, hrange]

/-- A bit of the words from `s` on, which is set in `missing`. -/
def BitFrom (missing : Nat → UInt64) (s n id : Nat) : Prop :=
  64 * s ≤ id ∧ id < 64 * (s + n) ∧ hasBit (missing (id / 64)) (id % 64) = true

/-- **The loop over words finds the least bit**, or there is none. -/
theorem missingLoop_spec (missing : Nat → UInt64) (s n : Nat) :
    match missingLoop missing (List.range' s n) with
    | none    => ∀ id, ¬ BitFrom missing s n id
    | some id => IsLeast {id | BitFrom missing s n id} id := by
  induction n generalizing s with
  | zero =>
      rintro id ⟨hle, hlt, -⟩
      omega
  | succ n ih =>
      rw [List.range'_succ, missingLoop]
      by_cases hzero : missing s = 0
      · -- no bit of this word
        have hskip : ∀ id, BitFrom missing s (n + 1) id ↔ BitFrom missing (s + 1) n id := by
          intro id
          constructor
          · rintro ⟨hle, hlt, hbit⟩
            refine ⟨?_, by omega, hbit⟩
            by_contra hnot
            have hword : id / 64 = s := by omega
            rw [hword, hzero] at hbit
            simp [hasBit] at hbit
          · rintro ⟨hle, hlt, hbit⟩
            exact ⟨by omega, by omega, hbit⟩
        rw [if_pos hzero]
        simp only [hskip]
        exact ih (s + 1)
      · obtain ⟨hb, hbit, hless⟩ := firstBit_spec hzero
        rw [if_neg hzero]
        dsimp only
        generalize ((List.range 64).find? (hasBit (missing s))).getD 0 = b at hb hbit hless
        refine ⟨⟨by omega, by omega, ?_⟩, fun id hid => ?_⟩
        · rw [show (s * 64 + b) / 64 = s by omega, show (s * 64 + b) % 64 = b by omega]
          exact hbit
        · obtain ⟨hle, -, hidbit⟩ := hid
          by_contra hlt
          have hword : id / 64 = s := by omega
          rw [hword, hless (id % 64) (by omega)] at hidbit
          cases hidbit

/-- The bits of a missing word. -/
theorem bitFrom_missingWord (e : ProbeAttachCapability) (req : ProbeRequirement) (id : Nat) :
    BitFrom (missingWord e req) 0 4 id ↔ Wanted req id ∧ ¬ Provided e id := by
  have hmod : id % 64 < 64 := Nat.mod_lt _ (by decide)
  unfold BitFrom missingWord Wanted Provided
  by_cases hpub : id / 64 < e.fieldBitmapWords.toNat
  · rw [if_pos hpub, hasBit_and_not _ _ hmod]
    simp [hpub, and_assoc]
  · rw [if_neg hpub]
    simp [hpub]

/-- What the loops report. -/
theorem loops_spec (e : ProbeAttachCapability) (req : ProbeRequirement) :
    match (publishedLoop e req).or (unpublishedLoop e req) with
    | none    => ∀ id, Wanted req id → Provided e id
    | some id => IsLeast {id | Wanted req id ∧ ¬ Provided e id} id := by
  have hspec := missingLoop_spec (missingWord e req) 0 4
  rw [← List.range_eq_range', ← loops_eq] at hspec
  cases hloops : (publishedLoop e req).or (unpublishedLoop e req) with
  | none =>
      rw [hloops] at hspec
      intro id hwanted
      by_contra hnot
      exact hspec id ((bitFrom_missingWord e req id).mpr ⟨hwanted, hnot⟩)
  | some id =>
      rw [hloops] at hspec
      simpa only [bitFrom_missingWord] using hspec

/-! ### Admission -/

/-- The first entry of the table for the attach point. -/
def FirstEntry (view : ProbeCapabilityView) (req : ProbeRequirement) (e : ProbeAttachCapability) :
    Prop :=
  ∃ before after, view.entries.take view.n.toNat = before ++ e :: after ∧
    e.attachId = req.attachId ∧ ∀ x ∈ before, x.attachId ≠ req.attachId

variable {req : ProbeRequirement} {view : ProbeCapabilityView}

theorem find?_eq_some_iff_firstEntry {e : ProbeAttachCapability} :
    ((view.entries.take view.n.toNat).find? fun e => e.attachId = req.attachId) = some e ↔
      FirstEntry view req e := by
  rw [List.find?_eq_some_iff_append]
  constructor
  · rintro ⟨hid, before, after, heq, hbefore⟩
    exact ⟨before, after, heq, of_decide_eq_true hid, fun x hx => by simpa using hbefore x hx⟩
  · rintro ⟨before, after, heq, hid, hbefore⟩
    exact ⟨decide_eq_true hid, before, after, heq, fun x hx => by simpa using hbefore x hx⟩

/-- The decision about an entry. -/
theorem probeCapabilityAdmit_eq {e : ProbeAttachCapability}
    (hbuild : req.bindBuildId = 0 ∨ req.firmwareBuildId = view.hdr.firmwareBuildId)
    (he : FirstEntry view req e) :
    probeCapabilityAdmit view req =
      match (publishedLoop e req).or (unpublishedLoop e req) with
      | some id => (.missingField, UInt32.ofNat id)
      | none    => if req.costUnits > e.maxCycleBudget then (.overBudget, 0) else (.ok, 0) := by
  rw [probeCapabilityAdmit, if_neg (by tauto), find?_eq_some_iff_firstEntry.mpr he]
  dsimp only
  cases publishedLoop e req with
  | none =>
      cases unpublishedLoop e req with
      | none => rfl
      | some id => rfl
  | some id => rfl

/-- Without an entry, or with another firmware, nothing is admitted and no field reported. -/
theorem probeCapabilityAdmit_refused
    (h : ¬ ((req.bindBuildId = 0 ∨ req.firmwareBuildId = view.hdr.firmwareBuildId) ∧
      ∃ e, FirstEntry view req e)) :
    (probeCapabilityAdmit view req).1 = .wrongFirmware ∨
      (probeCapabilityAdmit view req).1 = .noSuchAttach := by
  rw [probeCapabilityAdmit]
  split
  · exact .inl rfl
  · rename_i hbuild
    split
    · exact .inr rfl
    · rename_i e hfind
      exact absurd ⟨by tauto, e, find?_eq_some_iff_firstEntry.mp hfind⟩ h

/-- **Admission.**  A probe is admitted exactly if it is not bound to another firmware, its attach
point is in the table, the first entry for it provides every field that the probe reads, and the
cost is within the entry's budget; and a missing field that is reported is the least one. -/
theorem admit_iff (view : ProbeCapabilityView) (req : ProbeRequirement) :
    ((probeCapabilityAdmit view req).1 = .ok ↔
      (req.bindBuildId = 0 ∨ req.firmwareBuildId = view.hdr.firmwareBuildId) ∧
      ∃ e, FirstEntry view req e ∧ (∀ id, Wanted req id → Provided e id) ∧
        req.costUnits ≤ e.maxCycleBudget) ∧
    ∀ id, probeCapabilityAdmit view req = (.missingField, id) →
      ∃ e, FirstEntry view req e ∧ IsLeast {i | Wanted req i ∧ ¬ Provided e i} id.toNat := by
  by_cases hentry : (req.bindBuildId = 0 ∨ req.firmwareBuildId = view.hdr.firmwareBuildId) ∧
      ∃ e, FirstEntry view req e
  · obtain ⟨hbuild, e, he⟩ := hentry
    have honly : ∀ e', FirstEntry view req e' → e' = e := by
      intro e' he'
      have := find?_eq_some_iff_firstEntry.mpr he
      rw [find?_eq_some_iff_firstEntry.mpr he'] at this
      exact Option.some.inj this
    have hspec := loops_spec e req
    have heq := probeCapabilityAdmit_eq hbuild he
    cases hloops : (publishedLoop e req).or (unpublishedLoop e req) with
    | none =>
        rw [hloops] at hspec heq
        dsimp only at hspec heq
        rw [heq]
        by_cases hcost : req.costUnits > e.maxCycleBudget
        · rw [if_pos hcost]
          refine ⟨⟨fun h => ?_, ?_⟩, fun id h => ?_⟩
          · cases h
          · rintro ⟨-, e', he', -, hle⟩
            rw [honly e' he'] at hle
            exact absurd hcost (UInt32.not_lt.mpr hle)
          · cases h
        · rw [if_neg hcost]
          refine ⟨⟨fun _ => ⟨hbuild, e, he, hspec, UInt32.not_lt.mp hcost⟩, fun _ => rfl⟩,
            fun id h => ?_⟩
          cases h
    | some least =>
        rw [hloops] at hspec heq
        dsimp only at hspec heq
        rw [heq]
        refine ⟨⟨fun h => ?_, ?_⟩, fun id h => ⟨e, he, ?_⟩⟩
        · cases h
        · rintro ⟨-, e', he', hall, -⟩
          rw [honly e' he'] at hall
          exact absurd (hall least hspec.1.1) hspec.1.2
        · cases h
          have hsmall : least < 2 ^ 32 := Nat.lt_of_lt_of_le hspec.1.1.1 (by decide)
          rw [UInt32.toNat_ofNat_of_lt' hsmall]
          exact hspec
  · have hrefused := probeCapabilityAdmit_refused hentry
    constructor
    · constructor
      · intro h
        rcases hrefused with hr | hr <;> rw [hr] at h <;> cases h
      · rintro ⟨hbuild, e, he, -⟩
        exact absurd ⟨hbuild, e, he⟩ hentry
    · intro id h
      rcases hrefused with hr | hr <;> rw [h] at hr <;> cases hr

/-- The table with the thread switch. -/
def switchView : ProbeCapabilityView where
  hdr := ⟨probeCapMagic, 1, 0, 3, Vector.replicate 20 7, 0, 1, 48⟩
  entries := [threadSwitchedIn]
  n := 1

/-- A probe that reads the fields 1, 4 and 65. -/
def threeFields : ProbeRequirement := ⟨1, #v[0x12, 2, 0, 0], 100, Vector.replicate 20 7, 1⟩

theorem admit_missing_four :
    probeCapabilityAdmit switchView threeFields = (.missingField, 4) ∧
      ∃ e, FirstEntry switchView threeFields e ∧
        IsLeast {i | Wanted threeFields i ∧ ¬ Provided e i} (4 : UInt32).toNat :=
  ⟨by decide, (admit_iff switchView threeFields).2 4 (by decide)⟩

end SpinelEbpf.Amp

import SpinelEbpf.Support.Bytes

/-!
# Otlp — the name of a DNS question

A captured DNS message has 64 bytes, and `spnl_dns_qname` decodes the name that starts at the
twelfth: labels with their lengths before them and a zero at the end, which it joins by dots.  It
reads a length only before the 60th byte, so a last label that starts behind it is left out, though
the message holds it.

* `qname_inside`: whatever the bytes and the capacity, all reads are of the bytes 12 to 63 and all
  writes within the capacity.
* `qname_eq_iff`: a name that lies in the message is decoded exactly if its last label starts before
  the 60th byte.

The output is written from front to back, so it is a list here, and the next index is its length.
An access outside the bounds is `none`.
-/

namespace SpinelEbpf.Otlp.Dns
open Bytes

/-! ### The function -/

/-- `raw[i]`, of the captured bytes behind the DNS header. -/
def readRaw (raw : Mem) (i : Nat) : Option UInt8 := if 12 ≤ i ∧ i < 64 then some (raw i) else none

/-- `out[o++] = c`. -/
def push (cap : Nat) (out : List UInt8) (c : UInt8) : Option (List UInt8) :=
  if out.length < cap then some (out ++ [c]) else none

/-- The loop over a label, with the characters left. -/
def copyLoop (raw : Mem) (cap : Nat) : Nat → Nat → List UInt8 → Option (Nat × List UInt8)
  | 0, off, out     => some (off, out)
  | k + 1, off, out =>
      if off < 64 ∧ out.length < cap - 1 then do
        let c ← readRaw raw off
        let out ← push cap out c
        copyLoop raw cap k (off + 1) out
      else some (off, out)

/-- The loop over labels; every turn takes a byte, so 48 turns get to the bound. -/
def labelLoop (raw : Mem) (cap : Nat) : Nat → Nat → List UInt8 → Option (List UInt8)
  | 0, _, out       => some out
  | n + 1, off, out =>
      if off < 60 ∧ out.length < cap - 1 then do
        let l ← readRaw raw off
        if l = 0 ∨ l > 63 then some out
        else do
          let (off, out) ← copyLoop raw cap l.toNat (off + 1) out
          let out ← push cap out 46
          labelLoop raw cap n off out
      else some out

/-- `spnl_dns_qname`: the text before the terminator. -/
def spnlDnsQname (raw : Mem) (cap : Nat) : Option (List UInt8) := do
  let out ← labelLoop raw cap 48 12 []
  let out := if out.getLast? = some 46 then out.dropLast else out
  let _ ← push cap out 0
  some out

/-! ### Bounds -/

variable {raw : Mem} {cap off : Nat} {out : List UInt8}

theorem readRaw_eq {i : Nat} (hlo : 12 ≤ i) (hhi : i < 64) :
    readRaw raw i = some (raw i) := if_pos ⟨hlo, hhi⟩

theorem push_eq (h : out.length < cap) (c : UInt8) :
    push cap out c = some (out ++ [c]) := if_pos h

/-- A label is copied within the bounds, and leaves room for a dot. -/
theorem copyLoop_inside (raw : Mem) (k : Nat) (hoff : 12 ≤ off) (hout : out.length < cap) :
    ∃ off' out', copyLoop raw cap k off out = some (off', out') ∧ 12 ≤ off' ∧ out'.length < cap := by
  induction k generalizing off out with
  | zero => exact ⟨off, out, rfl, hoff, hout⟩
  | succ k ih =>
      rw [copyLoop]
      split
      · rename_i h
        simp only [readRaw_eq hoff h.1, push_eq hout, Option.bind_eq_bind, Option.bind_some]
        refine ih (by omega) ?_
        rw [List.length_append, List.length_singleton]
        omega
      · exact ⟨off, out, rfl, hoff, hout⟩

/-- What the loop over labels writes: less than the capacity, or a dot at its end. -/
def Room (cap : Nat) (out : List UInt8) : Prop :=
  out.length < cap ∨ (out.length ≤ cap ∧ out.getLast? = some 46)

theorem labelLoop_inside (raw : Mem) (n : Nat) (hoff : 12 ≤ off) (hout : Room cap out) :
    ∃ out', labelLoop raw cap n off out = some out' ∧ Room cap out' := by
  induction n generalizing off out with
  | zero => exact ⟨out, rfl, hout⟩
  | succ n ih =>
      rw [labelLoop]
      split
      · rename_i h
        have hfits : out.length < cap := by omega
        obtain ⟨off', out', hcopy, hoff', hout'⟩ :=
          copyLoop_inside raw (raw off).toNat (Nat.le_succ_of_le hoff) hfits
        simp only [readRaw_eq hoff (Nat.lt_trans h.1 (by decide)), Option.bind_eq_bind,
          Option.bind_some]
        split
        · exact ⟨out, rfl, hout⟩
        · simp only [hcopy, push_eq hout', Option.bind_some]
          refine ih hoff' (.inr ⟨?_, List.getLast?_concat⟩)
          rw [List.length_append, List.length_singleton]
          omega
      · exact ⟨out, rfl, hout⟩

/-- **All accesses are inside.** -/
theorem qname_inside (raw : Mem) (hcap : 1 ≤ cap) :
    ∃ out, spnlDnsQname raw cap = some out ∧ out.length < cap := by
  obtain ⟨out, hloop, hroom⟩ := labelLoop_inside raw 48 (Nat.le_refl 12) (.inl hcap : Room cap [])
  have hlast : (if out.getLast? = some 46 then out.dropLast else out).length < cap := by
    split
    · rw [List.length_dropLast]
      rcases hroom with h | h <;> omega
    · rename_i hdot
      exact hroom.resolve_right fun h => hdot h.2
  simp only [spnlDnsQname, hloop, push_eq hlast, Option.bind_eq_bind, Option.bind_some]
  exact ⟨_, rfl, hlast⟩

/-! ### Names -/

/-- A label of a name. -/
structure Label where
  bytes : List UInt8
  nonempty : bytes ≠ []
  short : bytes.length ≤ 63
  dotless : 46 ∉ bytes

theorem Label.length_pos (l : Label) : 0 < l.bytes.length := List.length_pos_iff.mpr l.nonempty

/-- A label behind its length. -/
def Label.encoded (l : Label) : List UInt8 := UInt8.ofNat l.bytes.length :: l.bytes

/-- A name as it is sent: its labels, and a zero. -/
def encodeName (labels : List Label) : List UInt8 := labels.flatMap Label.encoded ++ [0]

/-- A name as it is written: its labels with dots between them. -/
def dotted (labels : List Label) : List UInt8 := [46].intercalate (labels.map Label.bytes)

/-- The labels, each with a dot behind it. -/
def dots (labels : List Label) : List UInt8 := labels.flatMap fun l => l.bytes ++ [46]

/-- Where the last label of a name starts. -/
def lastStart (labels : List Label) : Nat := 12 + (labels.dropLast.flatMap Label.encoded).length

theorem dots_cons (l : Label) (labels : List Label) :
    dots (l :: labels) = l.bytes ++ [46] ++ dots labels := List.flatMap_cons

theorem dots_eq (l : Label) (labels : List Label) :
    dots (l :: labels) = dotted (l :: labels) ++ [46] := by
  induction labels generalizing l with
  | nil => simp [dots, dotted]
  | cons l' labels ih =>
      have hrest := ih l'
      rw [dots_cons, hrest, dotted, dotted]
      simp [List.intercalate]

theorem length_flatMap_encoded (labels : List Label) :
    (labels.flatMap Label.encoded).length = (dots labels).length := by
  induction labels with
  | nil => rfl
  | cons l labels ih =>
      rw [List.flatMap_cons, dots_cons, List.length_append, List.length_append, ih]
      simp [Label.encoded]

variable {labels : List Label}

theorem length_dotted (hne : labels ≠ []) :
    (dotted labels).length + 1 = (labels.flatMap Label.encoded).length := by
  obtain ⟨l, labels, rfl⟩ := List.exists_cons_of_ne_nil hne
  rw [length_flatMap_encoded, dots_eq, List.length_append, List.length_singleton]

theorem length_le_flatMap_encoded (labels : List Label) :
    2 * labels.length ≤ (labels.flatMap Label.encoded).length := by
  induction labels with
  | nil => exact Nat.le_refl _
  | cons l labels ih =>
      have := l.length_pos
      rw [List.flatMap_cons, List.length_append, List.length_cons, Label.encoded, List.length_cons]
      omega

/-- **A label is copied.** -/
theorem copyLoop_label {bytes : List UInt8} (hraw : Holds raw off bytes) (hlo : 12 ≤ off)
    (hhi : off + bytes.length ≤ 64) (hcap : out.length + bytes.length ≤ cap - 1) :
    copyLoop raw cap bytes.length off out = some (off + bytes.length, out ++ bytes) := by
  induction bytes generalizing off out with
  | nil => rw [List.append_nil]; rfl
  | cons b bs ih =>
      obtain ⟨hread, hbs⟩ := holds_cons.mp hraw
      rw [List.length_cons] at hhi hcap ⊢
      rw [copyLoop, if_pos ⟨by omega, by omega⟩]
      simp only [readRaw_eq hlo (show off < 64 by omega),
        push_eq (show out.length < cap by omega), Option.bind_eq_bind, Option.bind_some]
      rw [ih hbs (by omega) (by omega) (by rw [List.length_append, List.length_singleton]; omega),
        hread, List.append_assoc, List.singleton_append, Nat.add_assoc, Nat.add_comm 1]

/-- **A turn of the loop over labels.** -/
theorem labelLoop_label (l : Label) (n : Nat) (hraw : Holds raw off l.encoded) (hlo : 12 ≤ off)
    (hoff : off < 60) (hhi : off + l.encoded.length ≤ 64)
    (hcap : out.length + l.encoded.length ≤ cap) :
    labelLoop raw cap (n + 1) off out =
      labelLoop raw cap n (off + l.encoded.length) (out ++ (l.bytes ++ [46])) := by
  obtain ⟨hread, hbytes⟩ := holds_cons.mp hraw
  have hpos := l.length_pos
  have hshort := l.short
  rw [Label.encoded, List.length_cons] at hhi hcap ⊢
  have hnat : (raw off).toNat = l.bytes.length := by
    rw [hread, UInt8.toNat_ofNat_of_lt' (Nat.lt_of_le_of_lt hshort (by decide))]
  have hgood : ¬ (raw off = 0 ∨ raw off > 63) := by
    rintro (h | h)
    · rw [h] at hnat
      exact absurd hnat (by simp; omega)
    · have := UInt8.lt_iff_toNat_lt.mp h
      rw [hnat] at this
      exact absurd this (by simp; omega)
  have hcopy : copyLoop raw cap l.bytes.length (off + 1) out =
      some (off + 1 + l.bytes.length, out ++ l.bytes) :=
    copyLoop_label hbytes (by omega) (by omega) (by omega)
  have hdot : (out ++ l.bytes).length < cap := by
    rw [List.length_append]
    omega
  rw [labelLoop, if_pos ⟨hoff, by omega⟩]
  simp only [readRaw_eq hlo (show off < 64 by omega), Option.bind_eq_bind, Option.bind_some,
    if_neg hgood, hnat, hcopy, push_eq hdot]
  rw [List.append_assoc, Nat.add_assoc, Nat.add_comm 1]

/-- **The labels that start before the bound are copied**, one turn each. -/
theorem labelLoop_labels (labels : List Label) (n : Nat)
    (hraw : Holds raw off (labels.flatMap Label.encoded)) (hlo : 12 ≤ off)
    (hstart : labels ≠ [] → off + (labels.dropLast.flatMap Label.encoded).length < 60)
    (hhi : off + (labels.flatMap Label.encoded).length ≤ 64)
    (hcap : out.length + (labels.flatMap Label.encoded).length ≤ cap) :
    labelLoop raw cap (labels.length + n) off out =
      labelLoop raw cap n (off + (labels.flatMap Label.encoded).length) (out ++ dots labels) := by
  induction labels generalizing off out with
  | nil =>
      simp [dots]
  | cons l labels ih =>
      rw [List.flatMap_cons, holds_append] at hraw
      rw [List.flatMap_cons, List.length_append] at hhi hcap ⊢
      have hoff : off < 60 := Nat.lt_of_le_of_lt (Nat.le_add_right _ _) (hstart (by simp))
      have hnext : labels ≠ [] →
          off + l.encoded.length + (labels.dropLast.flatMap Label.encoded).length < 60 := by
        intro hne
        have := hstart (List.cons_ne_nil _ _)
        rw [List.dropLast_cons_of_ne_nil hne, List.flatMap_cons, List.length_append] at this
        omega
      have hout : (out ++ (l.bytes ++ [46])).length = out.length + l.encoded.length := by
        simp [Label.encoded]
      rw [List.length_cons, Nat.add_right_comm, labelLoop_label l _ hraw.1 hlo hoff (by omega)
        (by omega), ih hraw.2 (by omega) hnext (by omega) (by omega), dots_cons,
        List.append_assoc, Nat.add_assoc]

/-- The loop ends at a zero, and behind the bound. -/
theorem labelLoop_ends {n : Nat} (hlo : 12 ≤ off) (h : 60 ≤ off ∨ raw off = 0) :
    labelLoop raw cap n off out = some out := by
  cases n with
  | zero => rfl
  | succ n =>
      rw [labelLoop]
      split
      · rename_i hin
        have hzero : raw off = 0 := h.resolve_left (by omega)
        simp only [readRaw_eq hlo (show off < 64 by omega), Option.bind_eq_bind, Option.bind_some]
        rw [if_pos (.inl hzero)]
      · rfl

/-- The dot behind the last label is taken back. -/
theorem qname_of_dots (hloop : labelLoop raw cap 48 12 [] = some (dots labels))
    (hcap : (dotted labels).length < cap) : spnlDnsQname raw cap = some (dotted labels) := by
  have hlast : (if (dots labels).getLast? = some 46 then (dots labels).dropLast else dots labels) =
      dotted labels := by
    cases labels with
    | nil => rfl
    | cons l labels =>
        rw [dots_eq, if_pos List.getLast?_concat, List.dropLast_concat]
  simp only [spnlDnsQname, hloop, Option.bind_eq_bind, Option.bind_some, hlast, push_eq hcap]

/-- The name without the labels behind `labels`. -/
theorem qname_of_labels (hraw : Holds raw 12 (labels.flatMap Label.encoded))
    (hstart : labels ≠ [] → 12 + (labels.dropLast.flatMap Label.encoded).length < 60)
    (hoff : off = 12 + (labels.flatMap Label.encoded).length) (hhi : off ≤ 64)
    (hend : 60 ≤ off ∨ raw off = 0) (hcap : (dotted labels).length < cap) :
    spnlDnsQname raw cap = some (dotted labels) := by
  have hturns : labels.length ≤ 48 := by
    have := length_le_flatMap_encoded labels
    omega
  have hdots : (labels.flatMap Label.encoded).length ≤ cap := by
    by_cases hne : labels = []
    · rw [hne]
      exact Nat.zero_le _
    · rw [← length_dotted hne]
      exact hcap
  refine qname_of_dots ?_ hcap
  obtain ⟨n, hn⟩ := Nat.exists_eq_add_of_le hturns
  rw [hn, labelLoop_labels labels n hraw (Nat.le_refl 12) hstart (by omega) (by simpa using hdots),
    List.nil_append]
  exact labelLoop_ends (by omega) (hoff ▸ hend)

section

/-- A name whose last label starts before the bound. -/
theorem qname_decoded (hfits : 12 + (encodeName labels).length ≤ 64)
    (hraw : Holds raw 12 (encodeName labels)) (hcap : (dotted labels).length < cap)
    (hstart : lastStart labels < 60) : spnlDnsQname raw cap = some (dotted labels) := by
  rw [encodeName, holds_append] at hraw
  rw [encodeName, List.length_append, List.length_singleton] at hfits
  exact qname_of_labels hraw.1 (fun _ => hstart) rfl (by omega) (.inr (holds_cons.mp hraw.2).1) hcap

/-- A name whose last label starts behind the bound loses it. -/
theorem qname_cut (hfits : 12 + (encodeName labels).length ≤ 64)
    (hraw : Holds raw 12 (encodeName labels)) (hcap : (dotted labels).length < cap)
    (hstart : 60 ≤ lastStart labels) :
    spnlDnsQname raw cap = some (dotted labels.dropLast) ∧
      (dotted labels.dropLast).length < (dotted labels).length := by
  have hne : labels ≠ [] := by
    rintro rfl
    exact absurd hstart (by decide)
  obtain ⟨before, last, rfl⟩ : ∃ before last, labels = before ++ [last] :=
    ⟨labels.dropLast, labels.getLast hne, (List.dropLast_append_getLast hne).symm⟩
  rw [lastStart, List.dropLast_concat] at hstart
  rw [List.dropLast_concat]
  rw [encodeName, List.flatMap_append, List.append_assoc, holds_append] at hraw
  rw [encodeName, List.flatMap_append, List.length_append, List.length_append,
    List.flatMap_singleton, List.length_singleton, Label.encoded, List.length_cons] at hfits
  have hpos := last.length_pos
  have hbefore : before ≠ [] := by
    rintro rfl
    exact absurd hstart (by decide)
  have hlonger : (dotted before).length < (dotted (before ++ [last])).length := by
    have hall := length_dotted hne
    rw [List.flatMap_append, List.length_append, List.flatMap_singleton, Label.encoded,
      List.length_cons, ← length_dotted hbefore] at hall
    omega
  refine ⟨qname_of_labels hraw.1 (fun _ => ?_) rfl (by omega) (.inl hstart) (by omega), hlonger⟩
  -- the label before the last starts early enough, since both are in the message
  have hsplit : before = before.dropLast ++ [before.getLast hbefore] :=
    (List.dropLast_append_getLast hbefore).symm
  have hlen := congrArg (fun ls => (List.flatMap Label.encoded ls).length) hsplit
  have hprev := (before.getLast hbefore).length_pos
  simp only [List.flatMap_append, List.length_append, List.flatMap_singleton, Label.encoded,
    List.length_cons] at hlen
  omega

end

/-- **Which names are decoded.**  The reads are of the bytes 12 to 63 and the writes within the
capacity, whatever the bytes are.  A name that lies in the message, with room for it in the output,
is decoded exactly if its last label starts before the 60th byte. -/
theorem qname_eq_iff (raw : Mem) (cap : Nat) (hpos : 1 ≤ cap) :
    (∃ out, spnlDnsQname raw cap = some out ∧ out.length < cap) ∧
    ∀ labels : List Label, 12 + (encodeName labels).length ≤ 64 → Holds raw 12 (encodeName labels) →
      (dotted labels).length < cap →
      (spnlDnsQname raw cap = some (dotted labels) ↔ lastStart labels < 60) := by
  refine ⟨qname_inside raw hpos, fun labels hfits hraw hcap => ⟨fun hdecoded => ?_, ?_⟩⟩
  · by_contra hlate
    obtain ⟨hcut, hlt⟩ := qname_cut hfits hraw hcap (Nat.le_of_not_lt hlate)
    rw [hdecoded] at hcut
    rw [Option.some.inj hcut] at hlt
    exact absurd hlt (Nat.lt_irrefl _)
  · exact qname_decoded hfits hraw hcap

/-- A captured message with these bytes behind its header. -/
def message (bytes : List UInt8) : Mem := fun a => (List.replicate 12 0 ++ bytes).getD a 0

theorem holds_message (bytes : List UInt8) : Holds (message bytes) 12 bytes := by
  refine List.ext_getElem (length_read _ _ _) fun i _ hi => ?_
  rw [getElem_read, message, List.getD_append_right _ _ _ _ (by simp), List.length_replicate,
    Nat.add_sub_cancel_left, List.getD_eq_getElem _ _ hi]

/-- A label of one letter, `n` times. -/
def letters (c : UInt8) (n : Nat) (hpos : n ≠ 0) (hshort : n ≤ 63) (hdot : 46 ≠ c) : Label where
  bytes := List.replicate n c
  nonempty h := hpos (List.length_replicate.symm.trans (congrArg List.length h))
  short := List.length_replicate.trans_le hshort
  dotless h := hdot (List.eq_of_mem_replicate h)

/-- A name whose second label starts at the 60th byte. -/
def lateName : List Label :=
  [letters 97 47 (by decide) (by decide) (by decide), letters 98 1 (by decide) (by decide) (by decide)]

theorem qname_loses_label :
    12 + (encodeName lateName).length ≤ 64 ∧
      Holds (message (encodeName lateName)) 12 (encodeName lateName) ∧ (dotted lateName).length < 256 ∧
      spnlDnsQname (message (encodeName lateName)) 256 = some (List.replicate 47 97) ∧
      List.replicate 47 97 ≠ dotted lateName :=
  ⟨by decide, holds_message _, by decide, by decide +kernel, by decide⟩

/-- `aa.b`. -/
def earlyName : List Label :=
  [letters 97 2 (by decide) (by decide) (by decide), letters 98 1 (by decide) (by decide) (by decide)]

theorem qname_early :
    dotted earlyName = [97, 97, 46, 98] ∧
      (spnlDnsQname (message (encodeName earlyName)) 5 = some (dotted earlyName) ↔
        lastStart earlyName < 60) :=
  ⟨by decide, (qname_eq_iff (message (encodeName earlyName)) 5 (by decide)).2 earlyName (by decide)
    (holds_message _) (by decide)⟩

end SpinelEbpf.Otlp.Dns

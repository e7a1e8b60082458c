import SpinelEbpf.Support.Checksum

/-!
# Tcp — frames

A frame as an XDP program sees it: bytes addressed from `data`, and `data_end` a length away.
Memory past `data_end` is there but no program may look at it; changing the length moves
`data_end` and nothing else.

Every store is a `blit` of a fixed number of bytes, so a read after a chain of stores is one of two
facts at each link: the read is off the bytes stored (`byte_blit_off`, `be16_blit_off`,
`be32_blit_off`), or it is the word stored (`be16_setBe16`, `be32_setBe32`).
-/

namespace SpinelEbpf.Tcp

abbrev Byte := BitVec 8

/-- `ctx->data .. ctx->data_end`: the bytes and how many there are. -/
structure Frame where
  len : Nat
  byte : Nat → Byte

namespace Frame

variable {f : Frame} {src : Nat → Byte} {o n a : Nat}

/-! ### Loads -/

/-- A 16-bit word in network order. -/
def be16 (f : Frame) (o : Nat) : BitVec 16 := f.byte o ++ f.byte (o + 1)

/-- A 32-bit word in network order. -/
def be32 (f : Frame) (o : Nat) : BitVec 32 :=
  f.byte o ++ f.byte (o + 1) ++ f.byte (o + 2) ++ f.byte (o + 3)

/-- A 32-bit word as the machine loads it. -/
def le32 (f : Frame) (o : Nat) : BitVec 32 :=
  f.byte (o + 3) ++ f.byte (o + 2) ++ f.byte (o + 1) ++ f.byte o

/-! ### Stores -/

/-- `n` bytes at `o` become those of `src`. -/
def blit (f : Frame) (o n : Nat) (src : Nat → Byte) : Frame :=
  { f with byte := fun a => if o ≤ a ∧ a < o + n then src (a - o) else f.byte a }

/-- One byte. -/
abbrev set8 (f : Frame) (o : Nat) (b : Byte) : Frame := f.blit o 1 fun _ => b

/-- A 16-bit word through `bpf_htons`. -/
abbrev setBe16 (f : Frame) (o : Nat) (v : BitVec 16) : Frame :=
  f.blit o 2 fun i => v.extractLsb' (8 - 8 * i) 8

/-- A 16-bit word as the machine stores it. -/
abbrev setLe16 (f : Frame) (o : Nat) (v : BitVec 16) : Frame :=
  f.blit o 2 fun i => v.extractLsb' (8 * i) 8

/-- A 32-bit word through `bpf_htonl`. -/
abbrev setBe32 (f : Frame) (o : Nat) (v : BitVec 32) : Frame :=
  f.blit o 4 fun i => v.extractLsb' (24 - 8 * i) 8

@[simp] theorem len_blit (f : Frame) (o n : Nat) (src : Nat → Byte) :
    (f.blit o n src).len = f.len := rfl

theorem byte_blit_off (h : a < o ∨ o + n ≤ a) :
    (f.blit o n src).byte a = f.byte a := by
  simp only [blit]
  rw [if_neg (by omega)]

theorem byte_blit_on (h : o ≤ a) (h' : a < o + n) :
    (f.blit o n src).byte a = src (a - o) := by
  simp only [blit]
  rw [if_pos ⟨h, h'⟩]

theorem be16_blit_off (h : a + 2 ≤ o ∨ o + n ≤ a) :
    (f.blit o n src).be16 a = f.be16 a := by
  unfold be16
  rw [byte_blit_off (by omega), byte_blit_off (by omega)]

theorem be32_blit_off (h : a + 4 ≤ o ∨ o + n ≤ a) :
    (f.blit o n src).be32 a = f.be32 a := by
  unfold be32
  rw [byte_blit_off (by omega), byte_blit_off (by omega), byte_blit_off (by omega),
    byte_blit_off (by omega)]

theorem append_extractLsb'_8 (v : BitVec 16) : v.extractLsb' 8 8 ++ v.extractLsb' 0 8 = v := by
  refine BitVec.eq_of_getLsbD_eq fun i hi => ?_
  simp only [BitVec.getLsbD_append, BitVec.getLsbD_extractLsb']
  split <;> rename_i h
  · simp [h]
  · simp [show i - 8 < 8 by omega, show 8 + (i - 8) = i by omega]

theorem be16_setBe16 (f : Frame) (o : Nat) (v : BitVec 16) : (f.setBe16 o v).be16 o = v := by
  unfold be16
  rw [byte_blit_on (by omega) (by omega), byte_blit_on (by omega) (by omega)]
  simpa using append_extractLsb'_8 v

theorem append_extractLsb'_24 (v : BitVec 32) :
    v.extractLsb' 24 8 ++ v.extractLsb' 16 8 ++ v.extractLsb' 8 8 ++ v.extractLsb' 0 8 = v := by
  refine BitVec.eq_of_getLsbD_eq fun i hi => ?_
  simp only [BitVec.getLsbD_append, BitVec.getLsbD_extractLsb']
  by_cases h₁ : i < 8
  · simp [h₁]
  by_cases h₂ : i < 16
  · simp [h₁, show i - 8 < 8 by omega, show 8 + (i - 8) = i by omega]
  by_cases h₃ : i < 24
  · simp [h₁, show ¬ i - 8 < 8 by omega, show i - 8 - 8 < 8 by omega,
      show 16 + (i - 8 - 8) = i by omega]
  · simp [h₁, show ¬ i - 8 < 8 by omega, show ¬ i - 8 - 8 < 8 by omega,
      show i - 8 - 8 - 8 < 8 by omega, show 24 + (i - 8 - 8 - 8) = i by omega]

theorem be32_setBe32 (f : Frame) (o : Nat) (v : BitVec 32) : (f.setBe32 o v).be32 o = v := by
  unfold be32
  rw [byte_blit_on (by omega) (by omega), byte_blit_on (by omega) (by omega),
    byte_blit_on (by omega) (by omega), byte_blit_on (by omega) (by omega)]
  simpa using append_extractLsb'_24 v

/-! ### Words as numbers -/

theorem toNat_le32 (f : Frame) (o : Nat) :
    (f.le32 o).toNat = (f.byte o).toNat + 256 * (f.byte (o + 1)).toNat +
      65536 * (f.byte (o + 2)).toNat + 16777216 * (f.byte (o + 3)).toNat := by
  have h₀ := (f.byte o).isLt
  have h₁ := (f.byte (o + 1)).isLt
  have h₂ := (f.byte (o + 2)).isLt
  simp only [le32, BitVec.toNat_append, Nat.shiftLeft_eq]
  rw [← Nat.shiftLeft_eq, ← Nat.shiftLeft_add_eq_or_of_lt (by omega),
    ← Nat.shiftLeft_eq, ← Nat.shiftLeft_add_eq_or_of_lt (by omega),
    ← Nat.shiftLeft_eq, ← Nat.shiftLeft_add_eq_or_of_lt (by omega)]
  simp only [Nat.shiftLeft_eq]
  omega

/-- The two bytes of a machine-order word add up to it. -/
theorem toNat_setLe16 (f : Frame) (o : Nat) (v : BitVec 16) :
    ((f.setLe16 o v).byte o).toNat + 256 * ((f.setLe16 o v).byte (o + 1)).toNat = v.toNat := by
  rw [byte_blit_on (by omega) (by omega), byte_blit_on (by omega) (by omega)]
  have := v.isLt
  simp [BitVec.extractLsb'_toNat, Nat.shiftRight_eq_div_pow]
  omega

end Frame

end SpinelEbpf.Tcp

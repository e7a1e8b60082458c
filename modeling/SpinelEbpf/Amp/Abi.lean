import Mathlib

/-!
# Amp — the fixed memory ABI

`spnl/amp_abi.h` selects a board profile and the profile's header fixes the addresses.  `Board` is
the choice, and each constant of the headers is a function of it.
-/

namespace SpinelEbpf.Amp

/-- The board profiles of `spnl/amp_abi.h`. -/
inductive Board where
  | imx95m7
  | stm32mp2m33
  deriving DecidableEq, Repr

namespace Board

/-- `AMP_IVARS_BASE`. -/
def ivarsBase : Board → Nat
  | imx95m7     => 0x2003FF00
  | stm32mp2m33 => 0x0A05FF00

/-- `AMP_IVARS_SIZE`. -/
def ivarsSize : Board → Nat
  | imx95m7     => 0x00000100
  | stm32mp2m33 => 0x00000100

/-- `AMP_ABI_VERSION`. -/
def abiVersion : Board → BitVec 32
  | imx95m7     => 1#32
  | stm32mp2m33 => 2#32

/-- `AMP_HELPER_BASE`. -/
def helperBase : Board → Nat
  | imx95m7     => 0x0003FF00
  | stm32mp2m33 => 0x0A07FF00

/-- `AMP_CMD_RING_BASE`. -/
def cmdRingBase : Board → Nat
  | imx95m7     => 0x88430000
  | stm32mp2m33 => 0x81330000

/-- `AMP_PROGRESS_BASE`. -/
def progressBase : Board → Nat
  | imx95m7     => 0x88431000
  | stm32mp2m33 => 0x81331000

/-- The carveout ends inside the 32-bit address space. -/
theorem ivars_lt (b : Board) : b.ivarsBase + b.ivarsSize < 2 ^ 32 := by
  cases b <;> decide

end Board

/-- `AMP_BLOB_MAX`. -/
def ampBlobMax : Nat := 512

/-- `AMP_RT_BLOB_SLOT`: the two execution slots lie just below the helper table. -/
def Board.blobSlot (b : Board) (i : Fin 2) : Nat :=
  b.helperBase - 2 * ampBlobMax + i.val * ampBlobMax

/-! ### The layout -/

/-- `a` is a byte of execution slot `i`. -/
def InSlot (b : Board) (i : Fin 2) (a : Nat) : Prop :=
  b.blobSlot i ≤ a ∧ a < b.blobSlot i + ampBlobMax

/-- `a` is a byte of the ivar carveout. -/
def InCarveout (b : Board) (a : Nat) : Prop :=
  b.ivarsBase ≤ a ∧ a < b.ivarsBase + b.ivarsSize

theorem InSlot.unique {b : Board} {i j : Fin 2} {a : Nat} (hi : InSlot b i a) (hj : InSlot b j a) :
    i = j := by
  obtain ⟨h₁, h₂⟩ := hi
  obtain ⟨h₃, h₄⟩ := hj
  simp only [Board.blobSlot, ampBlobMax] at h₁ h₂ h₃ h₄
  omega

theorem InSlot.not_inCarveout {b : Board} {i : Fin 2} {a : Nat} (h : InSlot b i a) :
    ¬ InCarveout b a := by
  rintro ⟨h₁, h₂⟩
  obtain ⟨h₃, h₄⟩ := h
  have hi := i.isLt
  cases b <;>
    simp only [Board.blobSlot, Board.helperBase, Board.ivarsBase, Board.ivarsSize, ampBlobMax]
      at h₁ h₂ h₃ h₄ <;> omega

end SpinelEbpf.Amp

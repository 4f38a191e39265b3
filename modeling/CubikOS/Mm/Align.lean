import CubikOS.Lib.Smear
import CubikOS.Mm.Page

/-!
# Rounding up to a power of two

`page_size_align` of `Kernel/src/mm/page.c`.

The highest bit of `size - 1` is smeared to the right in steps of 1, 2, 4, 8 and 16 places, which is
31 places altogether.  A number of 64 bits would take one more step.  Without it the bits that are
more than 31 places away from the next one above them stay as they are.

* `pageSizeAlign_smeared` says what the steps come to.
* `pageSizeAlign_eq` is for sizes of up to 32 bits, which is what `PM_Allocate` makes sure of.
* `pageSizeAlign_rounds_iff` is for all sizes that can be rounded up, since `AllocatePages` makes
  sure of nothing.
-/

set_option autoImplicit false

namespace CubikOS

open Smear

/-- `r` is the least power of two from `size` on. -/
def RoundsUp (size r : ℕ) : Prop := IsLeast {p | size ≤ p ∧ ∃ k, p = 2 ^ k} r

variable {size : ℕ}

/-- **The five steps smear over 32 places.** -/
theorem pageSizeAlign_smeared (hpos : 1 ≤ size) (hlt : size < 2 ^ 64) :
    ∃ y, Smeared 32 (size - 1) y ∧ pageSizeAlign size = (y + 1) % 2 ^ 64 := by
  have hpred : (size + 2 ^ 64 - 1) % 2 ^ 64 = size - 1 := by omega
  refine ⟨_, (Smeared.start (size - 1)).step.step.step.step.step, ?_⟩
  simp only [pageSizeAlign, hpred]

/-- Up to half of the largest size there is no overflow. -/
theorem pageSizeAlign_succ (hpos : 1 ≤ size) (hmax : size ≤ 2 ^ 63) :
    ∃ y, Smeared 32 (size - 1) y ∧ pageSizeAlign size = y + 1 := by
  obtain ⟨y, hsmeared, heq⟩ := pageSizeAlign_smeared hpos (by omega)
  have hlt := hsmeared.lt_two_pow (show size - 1 < 2 ^ 63 by omega)
  refine ⟨y, hsmeared, ?_⟩
  rw [heq]
  exact Nat.mod_eq_of_lt (by omega)

/-- **`page_size_align` is the least power of two from `size` on**, for sizes of up to 32 bits. -/
theorem pageSizeAlign_eq (hpos : 1 ≤ size) (hsize : size ≤ 2 ^ 32) :
    pageSizeAlign size = 2 ^ Nat.clog 2 size := by
  obtain ⟨y, hsmeared, heq⟩ := pageSizeAlign_succ hpos (by omega)
  rw [heq]
  exact (hsmeared.succ_eq_iff hpos).mpr (Gapless.of_lt (by omega))

/-- **When `page_size_align` is the least power of two from `size` on**: there are nowhere 32 zeros
in a row below the highest bit of `size - 1`. -/
theorem pageSizeAlign_rounds_iff (hpos : 1 ≤ size) (hmax : size ≤ 2 ^ 63) :
    RoundsUp size (pageSizeAlign size) ↔ Gapless 32 (size - 1) := by
  obtain ⟨y, hsmeared, heq⟩ := pageSizeAlign_succ hpos hmax
  have hleast := isLeast_two_pow_clog size
  rw [heq, ← hsmeared.succ_eq_iff hpos]
  constructor
  · exact fun h ↦ h.unique hleast
  · intro h
    rw [h]
    exact hleast

/-- `2 ^ 33`, which is above 32 bits and has a predecessor without zeros. -/
theorem pageSizeAlign_rounds_iff_two_pow_33 : RoundsUp (2 ^ 33) (pageSizeAlign (2 ^ 33)) := by
  refine (pageSizeAlign_rounds_iff (by decide) (by decide)).mpr fun i hi ↦ ?_
  have hlt : i < 33 := (Nat.pow_lt_pow_iff_right (by decide)).mp (Nat.lt_of_le_of_lt hi (by decide))
  have hall : ∀ i < 33, (2 ^ 33 - 1) / 2 ^ i % 2 ^ 32 ≠ 0 := by decide
  exact hall i hlt

/-- **`2 ^ 32 + 1` is rounded up to an odd number.** -/
theorem pageSizeAlign_odd : pageSizeAlign (2 ^ 32 + 1) = 2 ^ 33 - 1 ∧
    ¬ ∀ size, 1 ≤ size → size ≤ 2 ^ 63 → RoundsUp size (pageSizeAlign size) := by
  have hodd : pageSizeAlign (2 ^ 32 + 1) = 2 ^ 33 - 1 := by decide
  refine ⟨hodd, fun hall ↦ ?_⟩
  obtain ⟨-, k, hk⟩ := (hall (2 ^ 32 + 1) (by decide) (by decide)).1
  rw [hodd] at hk
  rcases k with _ | k
  · exact absurd hk (by decide)
  · rw [Nat.pow_succ] at hk
    omega

end CubikOS

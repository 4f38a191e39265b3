import CubikOS.Arch.Scan

/-!
# Which bits marking a page sets

`VM_MarkPagesUsed` on any bitmap whose table of pointers lies apart from the words.

The bit that is set for a page is its own for the first 31 pages of each word of the first chunk
(`setsMark_iff_eq`).  For the others it is not.  The index of a word counts from the start of the
bitmap but is used from the start of the chunk, so that the marks of a chunk end up in the one
twice as far on, or behind the bitmap.  And the mask of a bit is one of 32, the last of which has
the whole upper half of the word.
-/

set_option autoImplicit false

namespace CubikOS

/-! ## Which bits are set -/

/-- Marking page `q` sets the mark bit of page `p`. -/
def SetsMark (q p : ℕ) : Prop :=
  p / 64 = 512 * (q / 32768) + q / 64 ∧ (p % 64 = q % 32 ∨ q % 32 = 31 ∧ 31 ≤ p % 64)

/-- In the first chunk, below the last bit of the lower half, a page sets its own mark bit. -/
theorem setsMark_iff_eq {q p : ℕ} (hchunk : q < 32768) (hbit : q % 64 < 31) :
    SetsMark q p ↔ p = q := by
  rw [SetsMark]
  omega

section Marking

variable {m : Words}

/-- Setting the bits of a mask. -/
theorem markBit_update (i b p : ℕ) :
    markBit (Function.update m i (m i ||| bitMask b)) p = true ↔
      markBit m p = true ∨ p / 64 = i ∧ (p % 64 = b % 32 ∨ b % 32 = 31 ∧ 31 ≤ p % 64) := by
  have hlt : p % 64 < 64 := Nat.mod_lt _ (by decide)
  rw [markBit_eq, markBit_eq]
  rcases eq_or_ne (p / 64) i with rfl | hi
  · rw [Function.update_self, BitVec.getLsbD_or, getLsbD_bitMask hlt, Bool.or_eq_true,
      decide_eq_true_iff]
    simp only [true_and]
  · rw [Function.update_of_ne hi]
    simp only [hi, false_and, or_false]

/-- **The mark bits after marking `n` pages**: those that were set, and those that one of the pages
sets. -/
theorem markPages_markBit {n page : ℕ} (hend : page + n ≤ kernelPages) (p : ℕ) :
    markBit (markPages chunkStart n m page) p = true ↔
      markBit m p = true ∨ ∃ q, page ≤ q ∧ q < page + n ∧ SetsMark q p := by
  induction n generalizing m page with
  | zero =>
    rw [markPages]
    refine ⟨Or.inl, ?_⟩
    rintro (h | ⟨q, h1, h2, -⟩)
    · exact h
    · omega
  | succ n ih =>
    have hindex : chunkStart m (page / 32768 % 2 ^ 16) + page / 64 % 2 ^ 16 =
        512 * (page / 32768) + page / 64 := by
      rw [chunkStart]
      dsimp only [kernelPages] at hend
      omega
    have hmod : page % 64 % 32 = page % 32 := Nat.mod_mod_of_dvd _ (by decide)
    rw [markPages]
    simp only [hindex]
    rw [ih (by omega), markBit_update, hmod, or_assoc]
    refine or_congr_right ?_
    constructor
    · rintro (h | ⟨q, h1, h2, h⟩)
      · exact ⟨page, le_refl page, by omega, h⟩
      · exact ⟨q, by omega, by omega, h⟩
    · rintro ⟨q, h1, h2, h⟩
      rcases Nat.eq_or_lt_of_le h1 with rfl | hlt
      · exact Or.inl h
      · exact Or.inr ⟨q, hlt, by omega, h⟩

end Marking

/-! ## A call -/

section Call

variable {m : Words} {virt amount : ℕ}

/-- The page a call starts with. -/
theorem vmMarkPagesUsed_eq (hbase : kernelVirtualBase ≤ virt)
    (hend : virt + archPageSize * amount ≤ 2 ^ 64) :
    vmMarkPagesUsed chunkStart m virt amount =
        markPages chunkStart amount m ((virt - kernelVirtualBase) / archPageSize) ∧
      (virt - kernelVirtualBase) / archPageSize + amount ≤ kernelPages := by
  have hpage : (virt + 2 ^ 64 - kernelVirtualBase) % 2 ^ 64 = virt - kernelVirtualBase := by
    dsimp only [kernelVirtualBase, archPageSize] at *
    omega
  constructor
  · rw [vmMarkPagesUsed]
    simp only [hpage]
  · dsimp only [kernelVirtualBase, archPageSize, kernelPages] at *
    omega

end Call

end CubikOS

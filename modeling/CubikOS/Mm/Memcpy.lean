import CubikOS.Lib.Bytes

/-!
# Copying memory

`memcpy` of `Kernel/src/mm/memory.c`.

Three loops copy eight bytes at a time, then four, then one, along two pointers.  Both pointers are
set to the place that is copied from: `dest` is returned, and is not used for anything else.

* `memcpy_count` says that the loops go on for as long as they should.
* `memcpy_eq` says that they change nothing.
* `memcpy_copies_iff` says what this means for a caller.
-/

set_option autoImplicit false

namespace CubikOS

open Bytes

/-! ## The function -/

/-- The variables of `memcpy`, and memory. -/
structure Copying where
  /-- Memory. -/
  mem : ℕ → BitVec 8
  /-- `sp`. -/
  sp : ℕ
  /-- `dp`. -/
  dp : ℕ
  /-- `count`. -/
  count : ℕ

/-- One round of a loop that copies `width` bytes at a time. -/
def Copying.round (width : ℕ) (s : Copying) : Copying where
  mem := storeBytes s.mem s.dp width (readBytes s.mem s.sp width)
  sp := (s.sp + width) % 2 ^ 64
  dp := (s.dp + width) % 2 ^ 64
  count := s.count - width

/-- The rounds that are left. -/
def Copying.rounds (width : ℕ) : ℕ → Copying → Copying
  | 0, s => s
  | fuel + 1, s => if width ≤ s.count then (s.round width).rounds width fuel else s

/-- `for (size_t i = count; i >= width; i = count)`. -/
def Copying.loop (width : ℕ) (s : Copying) : Copying := s.rounds width s.count

/-- `memcpy(dest, addr, count)`. -/
def memcpy (mem : ℕ → BitVec 8) (dest addr count : ℕ) : (ℕ → BitVec 8) × ℕ :=
  -- `char* dp = (char*)addr`
  let s : Copying := ⟨mem, addr, addr, count⟩
  ((((s.loop 8).loop 4).loop 1).mem, dest)

/-- `mem'` is `mem` with the `count` bytes at `addr` copied to `dest`. -/
structure IsCopy (mem mem' : ℕ → BitVec 8) (dest addr count : ℕ) : Prop where
  /-- The bytes are copied. -/
  copied : ∀ i, i < count → mem' ((dest + i) % 2 ^ 64) = mem ((addr + i) % 2 ^ 64)
  /-- Nothing else is changed. -/
  others : ∀ a, (∀ i, i < count → a ≠ (dest + i) % 2 ^ 64) → mem' a = mem a

/-! ## What it does -/

/-- The loop does not end before its time. -/
theorem Copying.rounds_count_lt {width fuel : ℕ} (hwidth : 0 < width) {s : Copying}
    (hfuel : s.count ≤ fuel) : (s.rounds width fuel).count < width := by
  induction fuel generalizing s with
  | zero =>
    rw [rounds]
    omega
  | succ fuel ih =>
    rw [rounds]
    split_ifs with h
    · refine ih ?_
      rw [round]
      dsimp only
      omega
    · omega

/-- Nothing is left to be copied. -/
theorem memcpy_count (mem : ℕ → BitVec 8) (addr count : ℕ) :
    ((((⟨mem, addr, addr, count⟩ : Copying).loop 8).loop 4).loop 1).count = 0 := by
  have := Copying.rounds_count_lt Nat.one_pos
    (le_refl (((⟨mem, addr, addr, count⟩ : Copying).loop 8).loop 4).count)
  exact Nat.lt_one_iff.mp this

/-- While the pointers are the same, they stay the same, and nothing is changed. -/
theorem Copying.rounds_mem {width fuel : ℕ} {s : Copying} (h : s.dp = s.sp) :
    (s.rounds width fuel).mem = s.mem ∧ (s.rounds width fuel).dp = (s.rounds width fuel).sp := by
  induction fuel generalizing s with
  | zero => exact ⟨rfl, h⟩
  | succ fuel ih =>
    rw [rounds]
    split_ifs
    · have hround : (s.round width).mem = s.mem := by
        simp only [round, h, storeBytes_readBytes]
      obtain ⟨hmem, hptr⟩ := @ih (s.round width) (by simp only [round, h])
      exact ⟨hmem.trans hround, hptr⟩
    · exact ⟨rfl, h⟩

/-- **`memcpy` does nothing.** -/
theorem memcpy_eq (mem : ℕ → BitVec 8) (dest addr count : ℕ) :
    memcpy mem dest addr count = (mem, dest) := by
  obtain ⟨h8, hp8⟩ := @Copying.rounds_mem 8 count ⟨mem, addr, addr, count⟩ rfl
  obtain ⟨h4, hp4⟩ := @Copying.rounds_mem 4 _ _ hp8
  obtain ⟨h1, -⟩ := @Copying.rounds_mem 1 _ _ hp4
  exact Prod.ext (h1.trans (h4.trans h8)) rfl

/-- **When `memcpy` copies**: the bytes are there already. -/
theorem memcpy_copies_iff (mem : ℕ → BitVec 8) (dest addr count : ℕ) :
    IsCopy mem (memcpy mem dest addr count).1 dest addr count ↔
      ∀ i, i < count → mem ((dest + i) % 2 ^ 64) = mem ((addr + i) % 2 ^ 64) := by
  rw [memcpy_eq]
  exact ⟨fun h ↦ h.copied, fun h ↦ ⟨h, fun _ _ ↦ rfl⟩⟩

/-- **One byte is not copied.** -/
theorem memcpy_copies_nothing :
    (memcpy (Function.update (fun _ ↦ 0#8) 0x100 1#8) 0x200 0x100 1).1 0x200 = 0#8 ∧
    ¬ IsCopy (Function.update (fun _ ↦ 0#8) 0x100 1#8)
      (memcpy (Function.update (fun _ ↦ 0#8) 0x100 1#8) 0x200 0x100 1).1 0x200 0x100 1 := by
  have hbyte : (memcpy (Function.update (fun _ ↦ 0#8) 0x100 1#8) 0x200 0x100 1).1 0x200 = 0#8 := by
    decide
  refine ⟨hbyte, fun h ↦ ?_⟩
  have := h.copied 0 Nat.one_pos
  rw [show (0x200 + 0) % 2 ^ 64 = 0x200 from rfl, hbyte] at this
  exact absurd this (by decide)

end CubikOS

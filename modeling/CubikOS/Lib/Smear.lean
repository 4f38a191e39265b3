import Mathlib

/-!
# Smearing bits to the right

`x ||| x >>> w` sets, next to every set bit of `x`, the bit `w` places to the right of it.  Doing
this for `w = 1, 2, 4, …, 2 ^ (n - 1)` sets the `2 ^ n - 1` bits to the right of every set bit, and
so, if there are nowhere `2 ^ n` zeros in a row below the highest bit of `x`, everything below that
bit: the result is one less than a power of two.

* `Smeared w x y` says that `y` is what `x` looks like when every set bit has been smeared over `w`
  places, itself included.
* `Gapless w x` says that there are nowhere `w` zeros in a row.
* `Smeared.succ_eq_iff` says when this is enough for rounding up to a power of two.
-/

set_option autoImplicit false

namespace Smear

/-- The set bits of `y` are those within `w` places to the right of a set bit of `x`. -/
def Smeared (w x y : ℕ) : Prop :=
  ∀ i, y.testBit i = true ↔ ∃ j, i ≤ j ∧ j < i + w ∧ x.testBit j = true

variable {x y w n : ℕ}

theorem Smeared.start (x : ℕ) : Smeared 1 x x := by
  intro i
  constructor
  · intro h
    exact ⟨i, le_refl i, by omega, h⟩
  · rintro ⟨j, h1, h2, h⟩
    rwa [show i = j by omega]

/-- One more step doubles the distance. -/
theorem Smeared.step (h : Smeared w x y) : Smeared (w + w) x (y ||| y >>> w) := by
  intro i
  rw [Nat.testBit_or, Nat.testBit_shiftRight, Bool.or_eq_true, h i, h (w + i)]
  constructor
  · rintro (⟨j, h1, h2, hj⟩ | ⟨j, h1, h2, hj⟩)
    · exact ⟨j, h1, by omega, hj⟩
    · exact ⟨j, by omega, by omega, hj⟩
  · rintro ⟨j, h1, h2, hj⟩
    rcases Nat.lt_or_ge j (i + w) with hlt | hge
    · exact Or.inl ⟨j, h1, hlt, hj⟩
    · exact Or.inr ⟨j, by omega, by omega, hj⟩

/-- Below its highest bit, `x` does not have `w` zeros in a row. -/
def Gapless (w x : ℕ) : Prop := ∀ i, 2 ^ i ≤ x → x / 2 ^ i % 2 ^ w ≠ 0

/-- A number with no more than `w` bits has no room for a gap. -/
theorem Gapless.of_lt (h : x < 2 ^ w) : Gapless w x := by
  intro i hi
  have hlt : x / 2 ^ i < 2 ^ w := Nat.lt_of_le_of_lt (Nat.div_le_self x (2 ^ i)) h
  rw [Nat.mod_eq_of_lt hlt]
  exact (Nat.div_pos hi (Nat.two_pow_pos i)).ne'

/-- There is a set bit among `w` of them. -/
theorem exists_testBit_iff (w x i : ℕ) :
    (∃ j, i ≤ j ∧ j < i + w ∧ x.testBit j = true) ↔ x / 2 ^ i % 2 ^ w ≠ 0 := by
  constructor
  · rintro ⟨j, hij, hjw, hj⟩ hzero
    have hbit : (x / 2 ^ i % 2 ^ w).testBit (j - i) = true := by
      rw [Nat.testBit_mod_two_pow, Nat.testBit_div_two_pow, Nat.sub_add_cancel hij, hj,
        Bool.and_true, decide_eq_true_iff]
      omega
    rw [hzero, Nat.zero_testBit] at hbit
    exact absurd hbit (by decide)
  · intro hne
    obtain ⟨k, hk⟩ := Nat.exists_testBit_of_ne_zero hne
    rw [Nat.testBit_mod_two_pow, Nat.testBit_div_two_pow, Bool.and_eq_true,
      decide_eq_true_iff] at hk
    exact ⟨k + i, Nat.le_add_left i k, by omega, hk.2⟩

/-- **What a number is smeared to**: ones, from its highest bit on, if there is no gap. -/
theorem Smeared.eq_ones_iff (h : Smeared w x y) : y = 2 ^ x.size - 1 ↔ Gapless w x := by
  constructor
  · rintro rfl i hi
    rw [← exists_testBit_iff, ← h i, Nat.testBit_two_pow_sub_one, decide_eq_true_iff]
    exact Nat.lt_size.mpr hi
  · intro hgap
    refine Nat.eq_of_testBit_eq fun i ↦ ?_
    rw [Nat.testBit_two_pow_sub_one, Bool.eq_iff_iff, h i, decide_eq_true_iff]
    constructor
    · rintro ⟨j, hij, -, hj⟩
      have hle : 2 ^ i ≤ 2 ^ j := Nat.pow_le_pow_right (by decide) hij
      exact Nat.lt_size.mpr (hle.trans (Nat.ge_two_pow_of_testBit hj))
    · intro hi
      exact (exists_testBit_iff w x i).mpr (hgap i (Nat.lt_size.mp hi))

/-! ## Rounding up -/

/-- The least power of two from `x` on. -/
theorem isLeast_two_pow_clog (x : ℕ) : IsLeast {p | x ≤ p ∧ ∃ k, p = 2 ^ k} (2 ^ Nat.clog 2 x) := by
  refine ⟨⟨Nat.le_pow_clog (by decide) x, _, rfl⟩, ?_⟩
  rintro _ ⟨hle, k, rfl⟩
  exact Nat.pow_le_pow_right (by decide) ((Nat.clog_le_iff_le_pow (by decide)).mpr hle)

theorem clog_eq_size (hpos : 1 ≤ x) : Nat.clog 2 x = (x - 1).size := by
  refine eq_of_forall_ge_iff fun k ↦ ?_
  rw [Nat.clog_le_iff_le_pow (by decide), Nat.size_le]
  omega

/-- **When one more than the smeared predecessor of `x` is the least power of two from `x` on.** -/
theorem Smeared.succ_eq_iff (hpos : 1 ≤ x) (h : Smeared w (x - 1) y) :
    y + 1 = 2 ^ Nat.clog 2 x ↔ Gapless w (x - 1) := by
  have hone := Nat.one_le_two_pow (n := (x - 1).size)
  rw [← h.eq_ones_iff, clog_eq_size hpos]
  omega

/-- No bit is lost. -/
theorem Smeared.le (h : Smeared w x y) (hw : 0 < w) : x ≤ y := by
  have hor : x ||| y = y := by
    refine Nat.eq_of_testBit_eq fun i ↦ ?_
    rw [Nat.testBit_or, Bool.or_eq_right_iff_imp]
    exact fun hi ↦ (h i).mpr ⟨i, le_refl i, Nat.lt_add_of_pos_right hw, hi⟩
  rw [← hor]
  exact Nat.left_le_or

/-- What is smeared has no bits above the highest one. -/
theorem Smeared.lt_two_pow (h : Smeared w x y) (hx : x < 2 ^ n) : y < 2 ^ n := by
  refine Nat.lt_pow_two_of_testBit y fun i hi ↦ ?_
  rw [Bool.eq_false_iff, Ne, h i]
  rintro ⟨j, hij, -, hj⟩
  have hlt : x < 2 ^ j := Nat.lt_of_lt_of_le hx (Nat.pow_le_pow_right (by decide) (hi.trans hij))
  exact absurd (Nat.ge_two_pow_of_testBit hj) (Nat.not_le.mpr hlt)

end Smear

import Mathlib

/-!
# Power-of-two blocks

A *block* is a run of `2 ^ order` units of memory, a unit being `u` addresses.  A buddy allocator
only ever does two things with one: cut it into its two halves, or put two halves together again.
This file has the geometry of the first.

* `span_succ`: a block of order `o + 1` is the disjoint union of its two halves of order `o`;
  `Aligned.lower` and `Aligned.upper` say that the halves of an aligned block are aligned.
* `Tiles parts b`: the blocks `parts` partition the block `b`.
* `tiles_upperHalves`: cutting a block down to order `o`, keeping the lower half each time, leaves
  the block itself at order `o` and one upper half of each order on the way.
-/

set_option autoImplicit false

namespace Buddy

/-- A block of `2 ^ order` units that starts at `base`. -/
structure Block where
  /-- The lowest address. -/
  base : ℕ
  /-- The logarithm of the number of units. -/
  order : ℕ
deriving DecidableEq

variable (u : ℕ)

/-- The number of addresses in a block. -/
def Block.size (b : Block) : ℕ := u * 2 ^ b.order

/-- The addresses of a block. -/
def Block.span (b : Block) : Set ℕ := Set.Ico b.base (b.base + b.size u)

/-- The block starts at a multiple of its own size. -/
def Block.Aligned (b : Block) : Prop := b.size u ∣ b.base

instance (b : Block) : Decidable (b.Aligned u) := inferInstanceAs (Decidable (_ ∣ _))

/-- The upper half of the block of order `o + 1` at `a`. -/
def upperHalf (a o : ℕ) : Block := ⟨a + u * 2 ^ o, o⟩

variable {u}

theorem Block.mem_span {b : Block} {x : ℕ} :
    x ∈ b.span u ↔ b.base ≤ x ∧ x < b.base + u * 2 ^ b.order := Iff.rfl

theorem Block.base_mem_span (hu : 0 < u) (b : Block) : b.base ∈ b.span u := by
  have : 0 < u * 2 ^ b.order := Nat.mul_pos hu (Nat.two_pow_pos _)
  rw [Block.mem_span]; omega

theorem size_succ (a o : ℕ) :
    (Block.mk a (o + 1)).size u = (Block.mk a o).size u + (Block.mk a o).size u := by
  simp only [Block.size, pow_succ]; ring

/-! ## Cutting a block in two -/

theorem span_succ (a o : ℕ) :
    (Block.mk a (o + 1)).span u = (Block.mk a o).span u ∪ (upperHalf u a o).span u := by
  have h := size_succ (u := u) a o
  simp only [Block.size] at h
  ext x
  simp only [Set.mem_union, Block.mem_span, upperHalf]
  omega

theorem disjoint_upperHalf (a o : ℕ) :
    Disjoint ((Block.mk a o).span u) ((upperHalf u a o).span u) := by
  rw [Set.disjoint_left]
  intro x
  simp only [Block.mem_span, upperHalf]
  omega

theorem Block.Aligned.lower {a o : ℕ} (h : (Block.mk a (o + 1)).Aligned u) :
    (Block.mk a o).Aligned u := by
  rw [Block.Aligned, size_succ] at h
  exact (Dvd.intro 2 (by ring)).trans h

theorem Block.Aligned.upper {a o : ℕ} (h : (Block.mk a (o + 1)).Aligned u) :
    (upperHalf u a o).Aligned u :=
  Nat.dvd_add h.lower (dvd_refl _)

theorem span_mono {a o o' : ℕ} (h : o ≤ o') :
    (Block.mk a o).span u ⊆ (Block.mk a o').span u := by
  have hpow : u * 2 ^ o ≤ u * 2 ^ o' := Nat.mul_le_mul_left _ (Nat.pow_le_pow_right (by omega) h)
  intro x
  simp only [Block.mem_span]
  omega

theorem upperHalf_span_subset {a o o' : ℕ} (h : o < o') :
    (upperHalf u a o).span u ⊆ (Block.mk a o').span u := by
  refine Set.Subset.trans ?_ (span_mono (Nat.succ_le_of_lt h))
  rw [span_succ]
  exact Set.subset_union_right

/-! ## Flipping one bit of an address -/

/-- The block next to an aligned one, of the same order and in the same block of the next order, is
found by flipping a bit: it lies behind a lower half, and before an upper one. -/
theorem xor_two_pow (a m : ℕ) :
    a ^^^ 2 ^ m = if a / 2 ^ m % 2 = 0 then a + 2 ^ m else a - 2 ^ m := by
  have hmod : (a ^^^ 2 ^ m) % 2 ^ m = a % 2 ^ m := by
    rw [Nat.xor_mod_two_pow, Nat.mod_self, Nat.xor_zero]
  have hdiv : (a ^^^ 2 ^ m) / 2 ^ m = a / 2 ^ m ^^^ 1 := by
    rw [Nat.xor_div_two_pow, Nat.div_self (Nat.two_pow_pos m)]
  have hsplit := Nat.div_add_mod (a ^^^ 2 ^ m) (2 ^ m)
  have hsplit' := Nat.div_add_mod a (2 ^ m)
  rw [hdiv, hmod] at hsplit
  split
  · rename_i heven
    rw [Nat.xor_one_of_even (Nat.even_iff.mpr heven), Nat.mul_add, Nat.mul_one] at hsplit
    omega
  · rename_i hodd
    have hodd : Odd (a / 2 ^ m) := Nat.odd_iff.mpr (by omega)
    rw [Nat.xor_one_of_odd hodd, Nat.mul_sub, Nat.mul_one] at hsplit
    have hle : 2 ^ m ≤ 2 ^ m * (a / 2 ^ m) := Nat.le_mul_of_pos_right _ hodd.pos
    omega

/-! ## Cutting a block down to a given order -/

variable (u)

/-- The blocks `parts` partition `b`. -/
structure Tiles (parts : List Block) (b : Block) : Prop where
  /-- No two of them share an address. -/
  disjoint : parts.Pairwise fun p q ↦ Disjoint (p.span u) (q.span u)
  /-- Together they are the whole of `b`. -/
  union : ∀ x, x ∈ b.span u ↔ ∃ p ∈ parts, x ∈ p.span u

/-- The upper halves cut off on the way from order `o + n` down to order `o`, smallest first. -/
def upperHalves (a o n : ℕ) : List Block := (List.range' o n).map (upperHalf u a)

variable {u}

/-- **What is left of a block cut down to order `o` tiles it.** -/
theorem tiles_upperHalves (a o n : ℕ) :
    Tiles u (⟨a, o⟩ :: upperHalves u a o n) ⟨a, o + n⟩ := by
  induction n with
  | zero => exact ⟨by simp [upperHalves], by simp [upperHalves]⟩
  | succ n ih =>
    have hlast : upperHalves u a o (n + 1) = upperHalves u a o n ++ [upperHalf u a (o + n)] := by
      simp [upperHalves, List.range'_concat]
    have hcons : (⟨a, o⟩ : Block) :: upperHalves u a o (n + 1) =
        (⟨a, o⟩ :: upperHalves u a o n) ++ [upperHalf u a (o + n)] := by rw [hlast]; rfl
    refine ⟨?_, fun x ↦ ?_⟩
    · -- everything cut off so far lies in the lower half that was cut last
      rw [hcons, List.pairwise_append]
      refine ⟨ih.disjoint, List.pairwise_singleton _ _, ?_⟩
      intro p hp q hq
      rw [List.mem_singleton.mp hq]
      refine (disjoint_upperHalf a (o + n)).mono_left ?_
      intro x hx
      exact (ih.union x).mpr ⟨p, hp, hx⟩
    · rw [← Nat.add_assoc, span_succ, Set.mem_union, ih.union, hcons]
      simp only [List.mem_append, List.mem_singleton]
      constructor
      · rintro (⟨p, hp, hx⟩ | hx)
        · exact ⟨p, Or.inl hp, hx⟩
        · exact ⟨_, Or.inr rfl, hx⟩
      · rintro ⟨p, hp | rfl, hx⟩
        · exact Or.inl ⟨p, hp, hx⟩
        · exact Or.inr hx

end Buddy

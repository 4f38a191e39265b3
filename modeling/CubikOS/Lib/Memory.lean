import Mathlib

/-!
# Memory by words, accessed at any byte

A memory is a function from the number of a 64-bit word to the word, and its bits are numbered
through: bit `x` is bit `x % 64` of word `x / 64`.  An access of eight bytes at byte `d` covers the
64 bits from bit `8 * d` on, which belong to one word or to two neighbours.

* `getLsbD_readAt` and `bit_orAt` say what reading and ORing in a mask do, bit by bit.
* `Below m m'` is the order in which ORing moves upwards.
-/

set_option autoImplicit false

namespace WordMemory

/-- A memory of 64-bit words. -/
abbrev Memory := ℕ → BitVec 64

/-- One bit of the memory. -/
def bit (m : Memory) (x : ℕ) : Bool := (m (x / 64)).getLsbD (x % 64)

/-- The eight bytes at byte `d`. -/
def readAt (m : Memory) (d : ℕ) : BitVec 64 :=
  m (d / 8) >>> (8 * (d % 8)) ||| m (d / 8 + 1) <<< (64 - 8 * (d % 8))

/-- The part of `mask`, put at byte `d`, that falls into word `w`. -/
def maskPart (d : ℕ) (mask : BitVec 64) (w : ℕ) : BitVec 64 :=
  if w = d / 8 then mask <<< (8 * (d % 8))
  else if w = d / 8 + 1 then mask >>> (64 - 8 * (d % 8))
  else 0#64

/-- OR `mask` into the eight bytes at byte `d`. -/
def orAt (m : Memory) (d : ℕ) (mask : BitVec 64) : Memory := fun w ↦ m w ||| maskPart d mask w

/-- Every bit of `m` is set in `m'`. -/
def Below (m m' : Memory) : Prop := ∀ x, bit m x = true → bit m' x = true

variable {m m' m'' : Memory} {d : ℕ} {mask : BitVec 64}

/-! ## Words and bits -/

theorem bit_mul_add {w b : ℕ} (hb : b < 64) : bit m (64 * w + b) = (m w).getLsbD b := by
  rw [bit, show (64 * w + b) / 64 = w by omega, show (64 * w + b) % 64 = b by omega]

/-- Two words are the same when their bits are. -/
theorem word_eq {w : ℕ} (h : ∀ b, b < 64 → bit m (64 * w + b) = bit m' (64 * w + b)) :
    m w = m' w := by
  refine BitVec.eq_of_getLsbD_eq fun b hb ↦ ?_
  rw [← bit_mul_add hb, ← bit_mul_add hb]
  exact h b hb

theorem bit_congr {x : ℕ} (h : m (x / 64) = m' (x / 64)) : bit m x = bit m' x := by
  rw [bit, bit, h]

/-- **Reading, bit by bit.** -/
theorem getLsbD_readAt {b : ℕ} (hb : b < 64) : (readAt m d).getLsbD b = bit m (8 * d + b) := by
  have hd : d % 8 < 8 := Nat.mod_lt _ (by decide)
  rw [readAt, BitVec.getLsbD_or, BitVec.getLsbD_ushiftRight, BitVec.getLsbD_shiftLeft, bit]
  rcases Nat.lt_or_ge (8 * (d % 8) + b) 64 with hlow | hhigh
  · rw [show (8 * d + b) / 64 = d / 8 by omega, show (8 * d + b) % 64 = 8 * (d % 8) + b by omega]
    simp [show b < 64 - 8 * (d % 8) by omega]
  · rw [show (8 * d + b) / 64 = d / 8 + 1 by omega,
      show (8 * d + b) % 64 = b - (64 - 8 * (d % 8)) by omega,
      BitVec.getLsbD_of_ge _ _ hhigh]
    simp [show ¬ b < 64 - 8 * (d % 8) by omega, hb]

theorem readAt_mul (w : ℕ) : readAt m (8 * w) = m w := by
  refine BitVec.eq_of_getLsbD_eq fun b hb ↦ ?_
  rw [getLsbD_readAt hb, ← bit_mul_add hb]
  congr 1
  omega

/-! ## ORing in a mask -/

theorem getLsbD_maskPart (x : ℕ) : (maskPart d mask (x / 64)).getLsbD (x % 64) =
    (decide (8 * d ≤ x) && mask.getLsbD (x - 8 * d)) := by
  have hd : d % 8 < 8 := Nat.mod_lt _ (by decide)
  have hx : x % 64 < 64 := Nat.mod_lt _ (by decide)
  rw [maskPart]
  split
  · rename_i hw
    rw [BitVec.getLsbD_shiftLeft]
    rcases Nat.lt_or_ge (x % 64) (8 * (d % 8)) with hlow | hhigh
    · simp [hlow, show ¬ 8 * d ≤ x by omega]
    · rw [show x - 8 * d = x % 64 - 8 * (d % 8) by omega]
      simp [hx, show ¬ x % 64 < 8 * (d % 8) by omega, show 8 * d ≤ x by omega]
  · rename_i hw
    split
    · rename_i hw'
      rw [BitVec.getLsbD_ushiftRight,
        show x - 8 * d = 64 - 8 * (d % 8) + x % 64 by omega]
      simp [show 8 * d ≤ x by omega]
    · rw [BitVec.getLsbD_zero]
      rcases Nat.lt_or_ge x (8 * d) with hlow | hhigh
      · simp [show ¬ 8 * d ≤ x by omega]
      · rw [BitVec.getLsbD_of_ge _ _ (by omega), Bool.and_false]

/-- **ORing in a mask, bit by bit.** -/
theorem bit_orAt (x : ℕ) : bit (orAt m d mask) x = true ↔
    bit m x = true ∨ 8 * d ≤ x ∧ mask.getLsbD (x - 8 * d) = true := by
  rw [bit, orAt, BitVec.getLsbD_or, getLsbD_maskPart, Bool.or_eq_true, Bool.and_eq_true,
    decide_eq_true_iff, bit]

theorem orAt_mul (w : ℕ) : orAt m (8 * w) mask = Function.update m w (m w ||| mask) := by
  funext w'
  rw [orAt, maskPart, show 8 * w / 8 = w by omega, show 8 * w % 8 = 0 by omega,
    Function.update_apply]
  split
  · rename_i h
    rw [h, Nat.mul_zero, BitVec.shiftLeft_zero]
  · split
    · rw [show mask >>> (64 - 8 * 0) = 0#64 by
        refine BitVec.eq_of_getLsbD_eq fun b hb ↦ ?_
        rw [BitVec.getLsbD_ushiftRight, BitVec.getLsbD_of_ge _ _ (by omega), BitVec.getLsbD_zero]]
      exact BitVec.or_zero
    · exact BitVec.or_zero

/-! ## The order -/

theorem Below.refl (m : Memory) : Below m m := fun _ h ↦ h

theorem Below.trans (h : Below m m') (h' : Below m' m'') : Below m m'' := fun x hx ↦ h' x (h x hx)

theorem below_orAt : Below m (orAt m d mask) := fun x hx ↦ (bit_orAt x).mpr (Or.inl hx)

/-- A word between two equal ones. -/
theorem Below.word_eq {w : ℕ} (h : Below m m') (h' : Below m' m'') (heq : m'' w = m w) :
    m' w = m w := by
  refine WordMemory.word_eq fun b hb ↦ ?_
  have hdiv : (64 * w + b) / 64 = w := by omega
  have hsame : bit m'' (64 * w + b) = bit m (64 * w + b) := bit_congr (by rw [hdiv, heq])
  rw [Bool.eq_iff_iff]
  exact ⟨fun hx ↦ hsame ▸ h' _ hx, h _⟩

end WordMemory

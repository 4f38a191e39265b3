import Mathlib

/-!
# Bytes

A memory of bytes with 64-bit addresses, in which numbers are stored lowest byte first and need not
be aligned.

* `readBytes_congr` says what a read depends on.
* `readBytes_writeBytes` says that what was written is read.
* `storeBytes_readBytes` says that writing what was read changes nothing.
-/

set_option autoImplicit false

namespace Bytes

/-- The number the `n` bytes at `a` spell, lowest byte first. -/
def readBytes (mem : ℕ → BitVec 8) (a : ℕ) : ℕ → ℕ
  | 0 => 0
  | n + 1 => (mem a).toNat + 256 * readBytes mem ((a + 1) % 2 ^ 64) n

/-- The memory once the eight bytes at `a` spell `v`. -/
def writeBytes (mem : ℕ → BitVec 8) (a v : ℕ) : ℕ → BitVec 8 := fun b ↦
  let i := (b + 2 ^ 64 - a) % 2 ^ 64
  if i < 8 then BitVec.ofNat 8 (v / 256 ^ i) else mem b

/-- The memory once the `n` bytes at `a` have been written one by one, so that they spell `v`. -/
def storeBytes (mem : ℕ → BitVec 8) (a : ℕ) : ℕ → ℕ → ℕ → BitVec 8
  | 0, _ => mem
  | n + 1, v =>
    storeBytes (Function.update mem a (BitVec.ofNat 8 v)) ((a + 1) % 2 ^ 64) n (v / 256)

variable {mem mem' : ℕ → BitVec 8} {a v : ℕ}

/-- What is read depends on the bytes that are read. -/
theorem readBytes_congr {n : ℕ} (hfit : a + n ≤ 2 ^ 64)
    (h : ∀ i, i < n → mem (a + i) = mem' (a + i)) : readBytes mem a n = readBytes mem' a n := by
  induction n generalizing a with
  | zero => rfl
  | succ n ih =>
    have hfirst := h 0 (Nat.succ_pos n)
    rw [Nat.add_zero] at hfirst
    rw [readBytes, readBytes, hfirst]
    rcases n with _ | n
    · rfl
    · have hmod : (a + 1) % 2 ^ 64 = a + 1 := Nat.mod_eq_of_lt (by omega)
      rw [hmod, ih (by omega) fun i hi ↦ ?_]
      have := h (i + 1) (by omega)
      rwa [Nat.add_comm i 1, ← Nat.add_assoc] at this

theorem readBytes_lt (mem : ℕ → BitVec 8) (a n : ℕ) : readBytes mem a n < 256 ^ n := by
  induction n generalizing a with
  | zero => exact Nat.one_pos
  | succ n ih =>
    have hbyte := (mem a).isLt
    have hrest := ih ((a + 1) % 2 ^ 64)
    rw [readBytes, Nat.pow_succ' (n := n)]
    omega

/-- The lowest byte of a number. -/
theorem readBytes_mod (mem : ℕ → BitVec 8) (a n : ℕ) :
    readBytes mem a (n + 1) % 256 = (mem a).toNat := by
  have hbyte := (mem a).isLt
  rw [readBytes]
  omega

/-- The lower bytes of a number, and the upper ones. -/
theorem readBytes_add (mem : ℕ → BitVec 8) {a : ℕ} (m n : ℕ) (ha : a < 2 ^ 64) :
    readBytes mem a (m + n) =
      readBytes mem a m + 256 ^ m * readBytes mem ((a + m) % 2 ^ 64) n := by
  induction m generalizing a with
  | zero => rw [Nat.zero_add, readBytes, Nat.pow_zero, Nat.add_zero, Nat.mod_eq_of_lt ha]; omega
  | succ m ih =>
    have haddr : ((a + 1) % 2 ^ 64 + m) % 2 ^ 64 = (a + (m + 1)) % 2 ^ 64 := by
      rw [Nat.mod_add_mod, Nat.add_assoc, Nat.add_comm 1]
    rw [Nat.succ_add, readBytes, ih (Nat.mod_lt _ (by decide)), haddr, readBytes,
      Nat.pow_succ' (n := m), Nat.mul_add, Nat.mul_assoc, Nat.add_assoc]

theorem writeBytes_of_lt {i : ℕ} (hi : i < 8) :
    writeBytes mem a v (a + i) = BitVec.ofNat 8 (v / 256 ^ i) := by
  have hindex : (a + i + 2 ^ 64 - a) % 2 ^ 64 = i := by omega
  simp only [writeBytes, hindex, hi, if_true]

theorem writeBytes_of_not_mem {b : ℕ} (hfit : a + 8 ≤ 2 ^ 64) (hb : b < 2 ^ 64)
    (h : b < a ∨ a + 8 ≤ b) : writeBytes mem a v b = mem b := by
  have hindex : ¬ (b + 2 ^ 64 - a) % 2 ^ 64 < 8 := by omega
  simp only [writeBytes, hindex, if_false]

/-- The bytes of a number, from byte `j` on. -/
theorem readBytes_of_bytes (hfit : a + 8 ≤ 2 ^ 64)
    (hmem : ∀ i, i < 8 → mem (a + i) = BitVec.ofNat 8 (v / 256 ^ i)) {n j : ℕ} (hn : j + n ≤ 8) :
    readBytes mem (a + j) n = v / 256 ^ j % 256 ^ n := by
  induction n generalizing j with
  | zero => rw [readBytes, Nat.pow_zero, Nat.mod_one]
  | succ n ih =>
    have hbyte : (mem (a + j)).toNat = v / 256 ^ j % 256 := by
      rw [hmem j (by omega), BitVec.toNat_ofNat]
    have hrest : readBytes mem ((a + j + 1) % 2 ^ 64) n = v / 256 ^ (j + 1) % 256 ^ n := by
      rcases n with _ | n
      · rw [readBytes, Nat.pow_zero, Nat.mod_one]
      · rw [Nat.mod_eq_of_lt (by omega), Nat.add_assoc, ih (by omega)]
    rw [readBytes, hbyte, hrest, Nat.pow_succ 256 j, ← Nat.div_div_eq_div_mul,
      Nat.pow_succ' (n := n), Nat.mod_mul]

/-- **A pointer that was written is read.** -/
theorem readBytes_writeBytes (hfit : a + 8 ≤ 2 ^ 64) (hv : v < 2 ^ 64) :
    readBytes (writeBytes mem a v) a 8 = v := by
  have hall : readBytes (writeBytes mem a v) (a + 0) 8 = v / 256 ^ 0 % 256 ^ 8 :=
    readBytes_of_bytes hfit (fun i hi ↦ writeBytes_of_lt hi) (le_refl 8)
  rwa [Nat.add_zero, Nat.pow_zero, Nat.div_one, Nat.mod_eq_of_lt (by omega)] at hall

/-- **Writing what was read changes nothing.** -/
theorem storeBytes_readBytes (mem : ℕ → BitVec 8) (a n : ℕ) :
    storeBytes mem a n (readBytes mem a n) = mem := by
  induction n generalizing a with
  | zero => rfl
  | succ n ih =>
    have hbyte := (mem a).isLt
    have hlow : BitVec.ofNat 8 (readBytes mem a (n + 1)) = mem a := by
      refine BitVec.eq_of_toNat_eq ?_
      rw [BitVec.toNat_ofNat]
      exact readBytes_mod mem a n
    have hrest : readBytes mem a (n + 1) / 256 = readBytes mem ((a + 1) % 2 ^ 64) n := by
      rw [readBytes]
      omega
    rw [storeBytes, hlow, hrest, Function.update_eq_self, ih]

end Bytes

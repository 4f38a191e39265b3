import CubikOS.Arch.Acpi
import CubikOS.Lib.CString

/-!
# Comparing strings

`strcmp` and `strncmp` of `Kernel/src/string.c`, beside `memcmp` of `Kernel/src/mm/memory.c`.

All three go along two strings and stop where they differ: `strcmp` at the end of both, `strncmp` at
the end of both or after `n` characters, `memcmp` after `n` bytes.  `memcmp` makes bytes of what it
compares.  The other two compare `char`s, which are signed here, so that every byte from 128 on is
less than 0, and less than the 0 at the end of a string.

* `firstDifference` is what two strings have at the first place where they differ, and
  `firstDifference_step` says what one round of a loop can see of it.
* `strcmp_eq`, `strncmp_eq` and `memcmp_eq` say what each function makes of it.
* `compare_same_iff` says when this comes to the same.

`none` is for a loop that does not end.  It has been round all of memory then.
-/

set_option autoImplicit false

namespace CubikOS.Str

open CString

/-! ## The functions -/

/-- The loop of `strcmp`. -/
def strcmpLoop (mem : ℕ → BitVec 8) : ℕ → ℕ → ℕ → Option ℤ
  | 0, _, _ => none
  | fuel + 1, s1, s2 =>
    if mem s1 = mem s2 then
      if mem s1 = 0#8 then some 0 else strcmpLoop mem fuel (next s1) (next s2)
    else some ((mem s1).toInt - (mem s2).toInt)

/-- `strcmp(s1, s2)`. -/
def strcmp (mem : ℕ → BitVec 8) (s1 s2 : ℕ) : Option ℤ := strcmpLoop mem (2 ^ 64) s1 s2

/-- The loop of `strncmp`, from character `i` on. -/
def strncmpLoop (s1 s2 : ℕ → BitVec 8) : ℕ → ℕ → ℤ
  | 0, _ => 0
  | n + 1, i =>
    if s1 i ≠ s2 i then if (s1 i).toInt < (s2 i).toInt then -1 else 1
    else if s1 i = 0#8 then 0
    else strncmpLoop s1 s2 n (i + 1)

/-- `strncmp(s1, s2, n)`. -/
def strncmp (mem : ℕ → BitVec 8) (s1 s2 n : ℕ) : ℤ :=
  strncmpLoop (bytesAt mem s1) (bytesAt mem s2) n 0

/-! ## The first difference -/

/-- The bytes at the first place where two strings differ, the 0 at their ends included. -/
def firstDifference : List (BitVec 8) → List (BitVec 8) → Option (BitVec 8 × BitVec 8)
  | [], [] => none
  | [], e :: _ => some (0#8, e)
  | c :: _, [] => some (c, 0#8)
  | c :: a, e :: b => if c = e then firstDifference a b else some (c, e)

/-- What is made of it. -/
def judge (f : BitVec 8 → BitVec 8 → ℤ) : Option (BitVec 8 × BitVec 8) → ℤ
  | none => 0
  | some (c, e) => f c e

variable {mem : ℕ → BitVec 8} {s1 s2 n : ℕ} {a b : List (BitVec 8)}

theorem firstDifference_eq_none : firstDifference a b = none ↔ a = b := by
  induction a generalizing b with
  | nil => cases b <;> simp [firstDifference]
  | cons c a ih =>
    cases b with
    | nil => simp [firstDifference]
    | cons e b =>
      rw [firstDifference]
      by_cases h : c = e
      · rw [if_pos h, ih, h, List.cons.injEq, and_iff_right rfl]
      · rw [if_neg h, List.cons.injEq]
        simp [h]

theorem firstDifference_ne (ha : ∀ c ∈ a, c ≠ 0#8) (hb : ∀ c ∈ b, c ≠ 0#8) {c e : BitVec 8}
    (h : firstDifference a b = some (c, e)) : c ≠ e := by
  induction a generalizing b with
  | nil =>
    cases b with
    | nil => simp [firstDifference] at h
    | cons e' b =>
      simp only [firstDifference, Option.some.injEq, Prod.mk.injEq] at h
      rw [← h.1, ← h.2]
      exact (hb e' (by simp)).symm
  | cons c' a ih =>
    cases b with
    | nil =>
      simp only [firstDifference, Option.some.injEq, Prod.mk.injEq] at h
      rw [← h.1, ← h.2]
      exact ha c' (by simp)
    | cons e' b =>
      rw [firstDifference] at h
      by_cases heq : c' = e'
      · rw [if_pos heq] at h
        exact ih (fun x hx ↦ ha x (by simp [hx])) (fun x hx ↦ hb x (by simp [hx])) h
      · rw [if_neg heq, Option.some.injEq, Prod.mk.injEq] at h
        rwa [← h.1, ← h.2]

/-! ## What the functions return -/

/-- **What can be seen at the front of two strings**: they differ there, both are at an end, or both
go on with the same character. -/
theorem firstDifference_step (ha : IsString mem s1 a) (hb : IsString mem s2 b) :
    (mem s1 ≠ mem s2 ∧ firstDifference a b = some (mem s1, mem s2)) ∨
    (mem s1 = mem s2 ∧ mem s1 = 0#8 ∧ a = [] ∧ b = []) ∨
    (mem s1 = mem s2 ∧ mem s1 ≠ 0#8 ∧ ∃ a' b', a = mem s1 :: a' ∧ b = mem s1 :: b' ∧
      IsString mem (next s1) a' ∧ IsString mem (next s2) b' ∧
      firstDifference a b = firstDifference a' b') := by
  cases a with
  | nil =>
    have h1 : mem s1 = 0#8 := ha
    cases b with
    | nil =>
      have h2 : mem s2 = 0#8 := hb
      exact Or.inr (Or.inl ⟨h1.trans h2.symm, h1, rfl, rfl⟩)
    | cons e b =>
      refine Or.inl ⟨?_, by rw [h1, hb.1, firstDifference]⟩
      rw [h1, hb.1]
      exact hb.2.1.symm
  | cons c a =>
    cases b with
    | nil =>
      have h2 : mem s2 = 0#8 := hb
      refine Or.inl ⟨?_, by rw [h2, ha.1, firstDifference]⟩
      rw [h2, ha.1]
      exact ha.2.1
    | cons e b =>
      rw [ha.1, hb.1, firstDifference]
      by_cases h : c = e
      · refine Or.inr (Or.inr ⟨h, ha.2.1, a, b, rfl, ?_, ha.2.2, hb.2.2, if_pos h⟩)
        rw [h]
      · exact Or.inl ⟨h, if_neg h⟩

theorem strcmpLoop_eq (ha : IsString mem s1 a) (hb : IsString mem s2 b) {fuel : ℕ}
    (hfuel : a.length < fuel) : strcmpLoop mem fuel s1 s2 =
      some (judge (fun c e ↦ c.toInt - e.toInt) (firstDifference a b)) := by
  induction fuel generalizing a b s1 s2 with
  | zero => exact absurd hfuel (Nat.not_lt_zero _)
  | succ fuel ih =>
    rw [strcmpLoop]
    obtain ⟨hne, hfirst⟩ | ⟨heq, hzero, rfl, rfl⟩ |
      ⟨heq, hne, a', b', rfl, rfl, ha', hb', hfirst⟩ := firstDifference_step ha hb
    · rw [if_neg hne, hfirst]
      rfl
    · rw [if_pos heq, if_pos hzero]
      rfl
    · rw [if_pos heq, if_neg hne, hfirst]
      exact ih ha' hb' (Nat.lt_of_succ_lt_succ hfuel)

/-- **What `strcmp` returns.** -/
theorem strcmp_eq (hs1 : s1 < 2 ^ 64) (ha : IsString mem s1 a) (hb : IsString mem s2 b) :
    strcmp mem s1 s2 = some (judge (fun c e ↦ c.toInt - e.toInt) (firstDifference a b)) :=
  strcmpLoop_eq ha hb (ha.length_lt hs1)

theorem strncmpLoop_eq {i : ℕ} (ha : IsString mem ((s1 + i) % 2 ^ 64) a)
    (hb : IsString mem ((s2 + i) % 2 ^ 64) b) (hn : max a.length b.length < n) :
    strncmpLoop (bytesAt mem s1) (bytesAt mem s2) n i =
      judge (fun c e ↦ if c.toInt < e.toInt then -1 else 1) (firstDifference a b) := by
  induction n generalizing a b i with
  | zero => exact absurd hn (Nat.not_lt_zero _)
  | succ n ih =>
    rw [strncmpLoop, bytesAt, bytesAt]
    obtain ⟨hne, hfirst⟩ | ⟨heq, hzero, rfl, rfl⟩ |
      ⟨heq, hne, a', b', rfl, rfl, ha', hb', hfirst⟩ := firstDifference_step ha hb
    · rw [if_pos hne, hfirst]
      rfl
    · rw [if_neg (not_not.mpr heq), if_pos hzero]
      rfl
    · rw [next_mod] at ha' hb'
      rw [List.length_cons, List.length_cons, Nat.add_max_add_right] at hn
      rw [if_neg (not_not.mpr heq), if_neg hne, hfirst]
      exact ih ha' hb' (Nat.lt_of_succ_lt_succ hn)

/-- **What `strncmp` returns**, if it may go on to the end of both strings. -/
theorem strncmp_eq (hs1 : s1 < 2 ^ 64) (hs2 : s2 < 2 ^ 64) (ha : IsString mem s1 a)
    (hb : IsString mem s2 b) (hn : max a.length b.length < n) : strncmp mem s1 s2 n =
      judge (fun c e ↦ if c.toInt < e.toInt then -1 else 1) (firstDifference a b) :=
  strncmpLoop_eq (by rwa [Nat.add_zero, Nat.mod_eq_of_lt hs1])
    (by rwa [Nat.add_zero, Nat.mod_eq_of_lt hs2]) hn

theorem memcmpLoop_eq {i k : ℕ} (ha : IsString mem ((s1 + i) % 2 ^ 64) a)
    (hb : IsString mem ((s2 + i) % 2 ^ 64) b) (hk : min a.length b.length = k) :
    memcmpLoop (bytesAt mem s1) (bytesAt mem s2) (k + 1) i =
      judge (fun c e ↦ c.toNat - e.toNat) (firstDifference a b) := by
  induction k generalizing a b i with
  | zero =>
    rw [memcmpLoop, bytesAt, bytesAt]
    obtain ⟨hne, hfirst⟩ | ⟨heq, -, rfl, rfl⟩ | ⟨-, -, a', b', rfl, rfl, -⟩ :=
      firstDifference_step ha hb
    · rw [if_pos hne, hfirst]
      rfl
    · rw [if_neg (not_not.mpr heq)]
      rfl
    · simp at hk
  | succ k ih =>
    rw [memcmpLoop, bytesAt, bytesAt]
    obtain ⟨hne, hfirst⟩ | ⟨-, -, rfl, rfl⟩ | ⟨heq, -, a', b', rfl, rfl, ha', hb', hfirst⟩ :=
      firstDifference_step ha hb
    · rw [if_pos hne, hfirst]
      rfl
    · simp at hk
    · rw [next_mod] at ha' hb'
      rw [List.length_cons, List.length_cons, Nat.add_min_add_right] at hk
      rw [if_neg (not_not.mpr heq), hfirst]
      exact ih ha' hb' (Nat.succ.inj hk)

/-- **What `memcmp` returns**, if it goes on to the end of the shorter string. -/
theorem memcmp_eq (hs1 : s1 < 2 ^ 64) (hs2 : s2 < 2 ^ 64) (ha : IsString mem s1 a)
    (hb : IsString mem s2 b) :
    memcmp (bytesAt mem s1) (bytesAt mem s2) (min a.length b.length + 1) =
      judge (fun c e ↦ c.toNat - e.toNat) (firstDifference a b) :=
  memcmpLoop_eq (by rwa [Nat.add_zero, Nat.mod_eq_of_lt hs1])
    (by rwa [Nat.add_zero, Nat.mod_eq_of_lt hs2]) rfl

/-! ## The order -/

/-- The three functions order two strings in the same way, and only the same strings are equal. -/
def SameOrder (mem : ℕ → BitVec 8) (s1 s2 : ℕ) (a b : List (BitVec 8)) (n : ℕ) : Prop :=
  ∃ r, strcmp mem s1 s2 = some r ∧ r.sign = (strncmp mem s1 s2 n).sign ∧
    r.sign = (memcmp (bytesAt mem s1) (bytesAt mem s2) (min a.length b.length + 1)).sign ∧
    (r = 0 ↔ a = b)

theorem sign_eq_sign_iff {x y : ℤ} : x.sign = y.sign ↔ (x < 0 ↔ y < 0) ∧ (0 < x ↔ 0 < y) := by
  rcases lt_trichotomy x 0 with hx | rfl | hx
  · rw [Int.sign_eq_neg_one_of_neg hx, eq_comm, Int.sign_eq_neg_one_iff_neg]
    omega
  · rw [Int.sign_zero, eq_comm, Int.sign_eq_zero_iff_zero]
    omega
  · rw [Int.sign_eq_one_of_pos hx, eq_comm, Int.sign_eq_one_iff_pos]
    omega

/-- Two bytes are in the same order both ways if they are on the same side of 128. -/
theorem sign_toInt_sub {c e : BitVec 8} : (c.toInt - e.toInt).sign =
    ((c.toNat : ℤ) - e.toNat).sign ↔ c = e ∨ (c < 0x80#8 ↔ e < 0x80#8) := by
  have hc := c.isLt
  have he := e.isLt
  rw [sign_eq_sign_iff, BitVec.toInt_eq_toNat_cond, BitVec.toInt_eq_toNat_cond, BitVec.toNat_eq,
    BitVec.lt_def, BitVec.lt_def, BitVec.toNat_ofNat]
  split_ifs <;> omega

theorem sign_ite_toInt {c e : BitVec 8} (h : c ≠ e) :
    (if c.toInt < e.toInt then -1 else 1 : ℤ).sign = (c.toInt - e.toInt).sign := by
  have hne : c.toInt ≠ e.toInt := fun heq ↦ h (BitVec.eq_of_toInt_eq heq)
  by_cases hlt : c.toInt < e.toInt
  · have hneg : c.toInt - e.toInt < 0 := by omega
    rw [if_pos hlt, Int.sign_eq_neg_one_of_neg hneg]
    rfl
  · have hpos : 0 < c.toInt - e.toInt := by omega
    rw [if_neg hlt, Int.sign_eq_one_of_pos hpos]
    rfl

/-- **When the three functions order two strings in the same way**: at the first place where these
differ, either both have a byte from 128 on or none has. -/
theorem compare_same_iff (hs1 : s1 < 2 ^ 64) (hs2 : s2 < 2 ^ 64) (ha : IsString mem s1 a)
    (hb : IsString mem s2 b) (hn : max a.length b.length < n) :
    SameOrder mem s1 s2 a b n ↔
      ∀ c e, firstDifference a b = some (c, e) → (c < 0x80#8 ↔ e < 0x80#8) := by
  rw [SameOrder, strcmp_eq hs1 ha hb, strncmp_eq hs1 hs2 ha hb hn, memcmp_eq hs1 hs2 ha hb]
  rcases hfirst : firstDifference a b with _ | ⟨c, e⟩
  · have hab := firstDifference_eq_none.mp hfirst
    constructor
    · simp
    · intro _
      exact ⟨0, rfl, rfl, rfl, by simp [hab]⟩
  · have hne := firstDifference_ne ha.ne_zero hb.ne_zero hfirst
    have hab : a ≠ b := fun h ↦ by simp [firstDifference_eq_none.mpr h] at hfirst
    have hint : c.toInt - e.toInt ≠ 0 := fun h ↦ hne (BitVec.eq_of_toInt_eq (by omega))
    simp only [judge, Option.some.injEq, Prod.mk.injEq]
    constructor
    · rintro ⟨r, rfl, -, hsign, -⟩ c' e' ⟨rfl, rfl⟩
      exact (sign_toInt_sub.mp hsign).resolve_left hne
    · intro h
      exact ⟨_, rfl, (sign_ite_toInt hne).symm, sign_toInt_sub.mpr (Or.inr (h c e ⟨rfl, rfl⟩)),
        by simp [hint, hab]⟩

/-- `"ab"` at `0x100`, `"ac"` at `0x200` and `"\x80"` at `0x300`. -/
def threeStrings : ℕ → BitVec 8
  | 0x100 => 0x61#8
  | 0x101 => 0x62#8
  | 0x200 => 0x61#8
  | 0x201 => 0x63#8
  | 0x300 => 0x80#8
  | _ => 0#8

/-- `"ab"` and `"ac"`. -/
theorem compare_same_iff_ascii :
    SameOrder threeStrings 0x100 0x200 [0x61#8, 0x62#8] [0x61#8, 0x63#8] 3 :=
  (compare_same_iff (by decide) (by decide) (by decide) (by decide) (by decide)).mpr
    (by simp [firstDifference])

/-- **`"\x80"` is less than `"ab"`, and it is not.** -/
theorem compare_same_high_byte : strcmp threeStrings 0x300 0x100 = some (-225) ∧
    strncmp threeStrings 0x300 0x100 3 = -1 ∧
    memcmp (bytesAt threeStrings 0x300) (bytesAt threeStrings 0x100) 2 = 31 ∧
    ¬ SameOrder threeStrings 0x300 0x100 [0x80#8] [0x61#8, 0x62#8] 3 := by
  have hstr : strcmp threeStrings 0x300 0x100 = some (-225) := by decide +kernel
  have hmem : memcmp (bytesAt threeStrings 0x300) (bytesAt threeStrings 0x100) 2 = 31 := by
    decide +kernel
  refine ⟨hstr, by decide +kernel, hmem, ?_⟩
  rintro ⟨r, hr, -, hsign, -⟩
  have hcount : min [0x80#8].length [0x61#8, 0x62#8].length + 1 = 2 := rfl
  rw [hstr, Option.some.injEq] at hr
  rw [hcount, hmem, ← hr] at hsign
  exact absurd hsign (by decide)

end CubikOS.Str

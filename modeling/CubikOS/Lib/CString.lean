import Mathlib

/-!
# Strings in memory

A string lies in a memory of bytes with 64-bit addresses: its characters, none of which is 0, one
after the other, and a 0 behind them.  Pointers go round at the end of the address space, so that
`next p` is where `p++` leads.

* `IsString mem p l` says that the string `l` lies at `p`, by recursion on `l`: a loop that follows
  a pointer along a string is reasoned about by induction on the string.
* `IsString.unique` and `exists_isString` say that there is one string at an address, if there is a
  0 in memory at all.
* `IsString.congr` is the one place where it is said which bytes a string depends on.
* `IsString.cut` says what becomes of a string if a 0 is written into it.
-/

set_option autoImplicit false

namespace CString

/-- `p + 1`. -/
def next (p : ℕ) : ℕ := (p + 1) % 2 ^ 64

theorem next_lt (p : ℕ) : next p < 2 ^ 64 := Nat.mod_lt _ (by decide)

theorem next_of_lt {p : ℕ} (h : p + 1 < 2 ^ 64) : next p = p + 1 := Nat.mod_eq_of_lt h

theorem next_mod (p i : ℕ) : next ((p + i) % 2 ^ 64) = (p + (i + 1)) % 2 ^ 64 := by
  rw [next, Nat.mod_add_mod, Nat.add_assoc]

theorem next_add_mod (p i : ℕ) : (next p + i) % 2 ^ 64 = (p + (i + 1)) % 2 ^ 64 := by
  rw [next, Nat.mod_add_mod, Nat.add_assoc, Nat.add_comm 1]

/-- The string `l` lies at `p`. -/
def IsString (mem : ℕ → BitVec 8) : ℕ → List (BitVec 8) → Prop
  | p, [] => mem p = 0#8
  | p, c :: l => mem p = c ∧ c ≠ 0#8 ∧ IsString mem (next p) l

variable {mem mem' : ℕ → BitVec 8} {p : ℕ} {l m : List (BitVec 8)}

instance (mem : ℕ → BitVec 8) (p : ℕ) (l : List (BitVec 8)) : Decidable (IsString mem p l) :=
  match l with
  | [] => inferInstanceAs (Decidable (mem p = 0#8))
  | c :: l =>
    have : Decidable (IsString mem (next p) l) := instDecidableIsString mem (next p) l
    inferInstanceAs (Decidable (mem p = c ∧ c ≠ 0#8 ∧ IsString mem (next p) l))

/-- There is one string at an address. -/
theorem IsString.unique (hl : IsString mem p l) (hm : IsString mem p m) : l = m := by
  induction l generalizing p m with
  | nil =>
    cases m with
    | nil => rfl
    | cons c m => exact absurd (hm.1.symm.trans hl) hm.2.1
  | cons c l ih =>
    cases m with
    | nil => exact absurd (hl.1.symm.trans hm) hl.2.1
    | cons e m => rw [← hl.1, ← hm.1, ih hl.2.2 hm.2.2]

theorem IsString.ne_zero (hl : IsString mem p l) : ∀ c ∈ l, c ≠ 0#8 := by
  induction l generalizing p with
  | nil => simp
  | cons c l ih =>
    intro e he
    rcases List.mem_cons.mp he with rfl | he
    · exact hl.2.1
    · exact ih hl.2.2 e he

/-- What lies behind a part of a string. -/
theorem IsString.drop (hp : p < 2 ^ 64) (h : IsString mem p (l ++ m)) :
    IsString mem ((p + l.length) % 2 ^ 64) m := by
  induction l generalizing p with
  | nil => rwa [List.length_nil, Nat.add_zero, Nat.mod_eq_of_lt hp]
  | cons c l ih =>
    have := ih (next_lt p) h.2.2
    rwa [next_add_mod] at this

/-- A string from character `i` on. -/
theorem IsString.drop_of_le (hp : p < 2 ^ 64) (h : IsString mem p l) {i : ℕ} (hi : i ≤ l.length) :
    IsString mem ((p + i) % 2 ^ 64) (l.drop i) := by
  rw [← List.take_append_drop i l] at h
  have := h.drop hp
  rwa [List.length_take_of_le hi] at this

/-- The characters of a string. -/
theorem IsString.get (hp : p < 2 ^ 64) (h : IsString mem p l) {i : ℕ} (hi : i < l.length) :
    mem ((p + i) % 2 ^ 64) = l[i] := by
  have hrest := h.drop_of_le hp hi.le
  rw [List.drop_eq_getElem_cons hi] at hrest
  exact hrest.1

/-- The 0 behind them. -/
theorem IsString.terminator (hp : p < 2 ^ 64) (h : IsString mem p l) :
    mem ((p + l.length) % 2 ^ 64) = 0#8 := by
  rw [← List.append_nil l] at h
  exact h.drop hp

/-- **What a string depends on.** -/
theorem IsString.congr (hp : p < 2 ^ 64) (h : IsString mem p l)
    (hmem : ∀ i, i ≤ l.length → mem' ((p + i) % 2 ^ 64) = mem ((p + i) % 2 ^ 64)) :
    IsString mem' p l := by
  induction l generalizing p with
  | nil =>
    have h0 := hmem 0 le_rfl
    rw [Nat.add_zero, Nat.mod_eq_of_lt hp] at h0
    exact h0.trans h
  | cons c l ih =>
    have h0 := hmem 0 (Nat.zero_le _)
    rw [Nat.add_zero, Nat.mod_eq_of_lt hp] at h0
    refine ⟨h0.trans h.1, h.2.1, ih (next_lt p) h.2.2 fun i hi ↦ ?_⟩
    rw [next_add_mod]
    exact hmem (i + 1) (Nat.succ_le_succ hi)

/-- A string behind the characters of another one. -/
theorem IsString.append (hp : p < 2 ^ 64) (h : IsString mem p l)
    (hmem : ∀ i, i < l.length → mem' ((p + i) % 2 ^ 64) = mem ((p + i) % 2 ^ 64))
    (hm : IsString mem' ((p + l.length) % 2 ^ 64) m) : IsString mem' p (l ++ m) := by
  induction l generalizing p with
  | nil => rwa [List.length_nil, Nat.add_zero, Nat.mod_eq_of_lt hp] at hm
  | cons c l ih =>
    have h0 := hmem 0 (Nat.succ_pos _)
    rw [Nat.add_zero, Nat.mod_eq_of_lt hp] at h0
    refine ⟨h0.trans h.1, h.2.1, ih (next_lt p) h.2.2 (fun i hi ↦ ?_) ?_⟩
    · rw [next_add_mod]
      exact hmem (i + 1) (Nat.succ_lt_succ hi)
    · rw [next_add_mod]
      exact hm

/-- **A string is shorter than memory**: going round it would come to its own beginning. -/
theorem IsString.length_lt (hp : p < 2 ^ 64) (h : IsString mem p l) : l.length < 2 ^ 64 := by
  by_contra hle
  rw [Nat.not_lt] at hle
  have hdrop := h.drop_of_le hp hle
  rw [Nat.add_mod_right, Nat.mod_eq_of_lt hp] at hdrop
  have hlen := congrArg List.length (h.unique hdrop)
  rw [List.length_drop] at hlen
  omega

/-- **A 0 that is written into a string cuts it off.** -/
theorem IsString.cut (hp : p < 2 ^ 64) (h : IsString mem p l) {k : ℕ} (hk : k ≤ l.length) :
    IsString (Function.update mem ((p + k) % 2 ^ 64) 0#8) p (l.take k) := by
  have hlen := h.length_lt hp
  induction k generalizing p l with
  | zero =>
    rw [Nat.add_zero, Nat.mod_eq_of_lt hp, List.take_zero, IsString, Function.update_self]
  | succ k ih =>
    cases l with
    | nil => simp at hk
    | cons c l =>
      rw [List.length_cons] at hk hlen
      have hrest := ih (next_lt p) h.2.2 (Nat.le_of_succ_le_succ hk) (by omega)
      rw [next_add_mod] at hrest
      refine ⟨?_, h.2.1, hrest⟩
      rw [Function.update_of_ne (by omega)]
      exact h.1

/-- A 0 that is written anywhere cuts a string off, or leaves it as it is. -/
theorem IsString.exists_take (hp : p < 2 ^ 64) (h : IsString mem p l) (a : ℕ) :
    ∃ k ≤ l.length, IsString (Function.update mem a 0#8) p (l.take k) := by
  by_cases ha : ∃ k ≤ l.length, a = (p + k) % 2 ^ 64
  · obtain ⟨k, hk, rfl⟩ := ha
    exact ⟨k, hk, h.cut hp hk⟩
  · refine ⟨l.length, le_rfl, ?_⟩
    rw [List.take_length]
    exact h.congr hp fun i hi ↦ Function.update_of_ne (fun hia ↦ ha ⟨i, hi, hia.symm⟩) _ _

/-- **There is a string at every address**, if there is a 0 in memory. -/
theorem exists_isString {a : ℕ} (ha : a < 2 ^ 64) (hzero : mem a = 0#8) (hp : p < 2 ^ 64) :
    ∃ l, IsString mem p l := by
  obtain ⟨n, hn⟩ : ∃ n, (p + n) % 2 ^ 64 = a := ⟨a + 2 ^ 64 - p, by omega⟩
  induction n generalizing p with
  | zero =>
    rw [Nat.add_zero, Nat.mod_eq_of_lt hp] at hn
    exact ⟨[], hn ▸ hzero⟩
  | succ n ih =>
    by_cases hc : mem p = 0#8
    · exact ⟨[], hc⟩
    · obtain ⟨l, hl⟩ := ih (next_lt p) (by rw [next_add_mod, hn])
      exact ⟨mem p :: l, rfl, hc, hl⟩

end CString

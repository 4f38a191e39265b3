import Mathlib

/-!
# Counted loops that may be left early

`forRange n f s` runs `f 0`, `f 1`, …, `f (n - 1)` one after the other on a state, starting at
`s`.  A body that ends in `.error e` leaves the whole loop at once, with `e`: a `return` from
inside a `for`.

* `forRange_inv` is the invariant rule, with a second predicate for what the loop is left with.
* `forRange_add` cuts a loop in two, and `forRange_mul` turns a loop within a loop into one.
-/

set_option autoImplicit false

namespace Loop

variable {ε σ : Type}

/-- `for (i = 0; i < n; i++)` with body `f`. -/
def forRange : ℕ → (ℕ → σ → Except ε σ) → σ → Except ε σ
  | 0, _, s => .ok s
  | n + 1, f, s =>
    match forRange n f s with
    | .error e => .error e
    | .ok s => f n s

variable {f g : ℕ → σ → Except ε σ} {s s' : σ} {n : ℕ} {e : ε}

theorem forRange_succ_ok (h : forRange n f s = .ok s') : forRange (n + 1) f s = f n s' := by
  rw [forRange, h]

theorem forRange_succ_error (h : forRange n f s = .error e) :
    forRange (n + 1) f s = .error e := by
  rw [forRange, h]

/-- **The invariant rule.**  What holds at the start and is kept by each round holds at the end,
and what holds whenever a round leaves the loop holds of what the loop is left with. -/
theorem forRange_inv {P : ℕ → σ → Prop} {Q : ε → Prop} (h0 : P 0 s)
    (hstep : ∀ i, i < n → ∀ t, P i t →
      (∀ t', f i t = .ok t' → P (i + 1) t') ∧ ∀ e, f i t = .error e → Q e) :
    (∀ s', forRange n f s = .ok s' → P n s') ∧ ∀ e, forRange n f s = .error e → Q e := by
  induction n with
  | zero =>
    refine ⟨fun s' h ↦ ?_, fun e h ↦ ?_⟩
    · rw [forRange, Except.ok.injEq] at h
      exact h ▸ h0
    · simp [forRange] at h
  | succ n ih =>
    obtain ⟨ihok, iherror⟩ := ih fun i hi ↦ hstep i (by omega)
    rcases h : forRange n f s with e | t
    · rw [forRange_succ_error h]
      refine ⟨fun s' h' ↦ by simp at h', fun e' h' ↦ ?_⟩
      rw [Except.error.injEq] at h'
      exact h' ▸ iherror e h
    · rw [forRange_succ_ok h]
      exact hstep n (Nat.lt_succ_self n) t (ihok t h)

/-- A loop none of whose rounds leaves it. -/
theorem forRange_eq_ok {P : ℕ → σ → Prop} (h0 : P 0 s)
    (hstep : ∀ i, i < n → ∀ t, P i t → ∃ t', f i t = .ok t' ∧ P (i + 1) t') :
    ∃ s', forRange n f s = .ok s' ∧ P n s' := by
  induction n with
  | zero => exact ⟨s, rfl, h0⟩
  | succ n ih =>
    obtain ⟨t, ht, hP⟩ := ih fun i hi ↦ hstep i (by omega)
    rw [forRange_succ_ok ht]
    exact hstep n (Nat.lt_succ_self n) t hP

theorem forRange_congr (h : ∀ i, i < n → ∀ t, f i t = g i t) : forRange n f s = forRange n g s := by
  induction n with
  | zero => rfl
  | succ n ih =>
    rw [forRange, forRange, ih fun i hi ↦ h i (by omega)]
    split
    · rfl
    · exact h n (Nat.lt_succ_self n) _

/-- **A loop is its first rounds, then the others.** -/
theorem forRange_add (a b : ℕ) : forRange (a + b) f s =
    match forRange a f s with
    | .error e => .error e
    | .ok s => forRange b (fun i ↦ f (a + i)) s := by
  induction b with
  | zero => cases h : forRange a f s <;> simp [forRange]
  | succ b ih =>
    rw [Nat.add_succ, forRange, ih]
    cases h : forRange a f s <;> simp [forRange]

theorem forRange_error_mono {m : ℕ} (hmn : m ≤ n) (h : forRange m f s = .error e) :
    forRange n f s = .error e := by
  obtain ⟨k, rfl⟩ := Nat.exists_eq_add_of_le hmn
  rw [forRange_add, h]

/-- **A loop within a loop is one loop.** -/
theorem forRange_mul (a b : ℕ) :
    forRange a (fun i ↦ forRange b fun j ↦ f (b * i + j)) s = forRange (b * a) f s := by
  induction a with
  | zero => rfl
  | succ a ih =>
    rw [Nat.mul_succ, forRange_add (b * a), ← ih]
    rfl

/-- **A loop that does the same as another or goes wrong.**  Every round of `g` does what the round
of `f` does, what it is left with being renamed, or goes wrong; so does the loop. -/
theorem forRange_mapError_or {ε' : Type} (φ : ε → ε') {Wrong : ε' → Prop}
    {g : ℕ → σ → Except ε' σ} (h : ∀ i, i < n → ∀ t,
      g i t = (f i t).mapError φ ∨ ∃ e, g i t = .error e ∧ Wrong e) :
    forRange n g s = (forRange n f s).mapError φ ∨ ∃ e, forRange n g s = .error e ∧ Wrong e := by
  induction n with
  | zero => exact Or.inl rfl
  | succ n ih =>
    rcases ih fun i hi ↦ h i (by omega) with heq | ⟨e, he, hwrong⟩
    · rw [forRange, heq, forRange]
      rcases forRange n f s with e | t
      · exact Or.inl rfl
      · exact h n (Nat.lt_succ_self n) t
    · exact Or.inr ⟨e, forRange_succ_error he, hwrong⟩

end Loop

import Mathlib

/-!
# Records that lie one behind the other

A table of records, each of which says where the next one begins.  `Chain next stop a l` says that
from `a` on the records before `stop` are those at the positions of `l`.  `walk` visits them one
after the other, as far as it gets: it may be left early by the body, or never come to an end.

* `walk_of_chain` says that the walk along a chain is `steps`, the body at each of the positions.
* `chain_of_walk` says that a walk that ends has gone along a chain.
-/

set_option autoImplicit false

namespace Records

variable {σ ε : Type}

/-- The positions of the records from `a` on that begin before `stop`. -/
inductive Chain (next : ℕ → ℕ) (stop : ℕ) : ℕ → List ℕ → Prop
  | done {a : ℕ} (h : stop ≤ a) : Chain next stop a []
  | cons {a : ℕ} {l : List ℕ} (hlt : a < stop) (hnext : a < next a)
    (hl : Chain next stop (next a) l) : Chain next stop a (a :: l)

/-- `while (a < stop) { body; a = next; }`, unless it is cut off. -/
def walk (next : ℕ → ℕ) (stop : ℕ) (body : ℕ → σ → Except ε σ) :
    ℕ → ℕ → σ → Option (Except ε σ)
  | 0, _, _ => none
  | fuel + 1, a, s =>
    if a < stop then
      match body a s with
      | .error e => some (.error e)
      | .ok s => walk next stop body fuel (next a) s
    else some (.ok s)

/-- The positions a walk visits. -/
def visited (next : ℕ → ℕ) (stop : ℕ) (body : ℕ → σ → Except ε σ) : ℕ → ℕ → σ → List ℕ
  | 0, _, _ => []
  | fuel + 1, a, s =>
    if a < stop then
      a :: match body a s with
        | .error _ => []
        | .ok s => visited next stop body fuel (next a) s
    else []

/-- The body at each of the positions of a list, unless it is left early. -/
def steps (body : ℕ → σ → Except ε σ) : List ℕ → σ → Except ε σ
  | [], s => .ok s
  | a :: l, s =>
    match body a s with
    | .error e => .error e
    | .ok s => steps body l s

variable {next : ℕ → ℕ} {stop a fuel : ℕ} {body : ℕ → σ → Except ε σ} {s s' : σ} {e : ε}
  {l l' : List ℕ}

/-! ## Steps -/

theorem steps_append_ok (h : steps body l s = .ok s') :
    steps body (l ++ l') s = steps body l' s' := by
  induction l generalizing s with
  | nil =>
    rw [steps, Except.ok.injEq] at h
    rw [List.nil_append, h]
  | cons a l ih =>
    rw [steps] at h
    rw [List.cons_append, steps]
    rcases hbody : body a s with e | t
    · simp [hbody] at h
    · simp only [hbody] at h
      exact ih h

theorem steps_append_error (h : steps body l s = .error e) :
    steps body (l ++ l') s = .error e := by
  induction l generalizing s with
  | nil => simp [steps] at h
  | cons a l ih =>
    rw [steps] at h
    rw [List.cons_append, steps]
    rcases hbody : body a s with e' | t
    · simpa [hbody] using h
    · simp only [hbody] at h
      exact ih h

/-! ## Walks -/

/-- There is one chain at most. -/
theorem Chain.unique (h : Chain next stop a l) (h' : Chain next stop a l') : l = l' := by
  induction h generalizing l' with
  | done hge =>
    cases h' with
    | done => rfl
    | cons hlt => exact absurd hlt (Nat.not_lt.mpr hge)
  | cons hlt _ _ ih =>
    cases h' with
    | done hge => exact absurd hlt (Nat.not_lt.mpr hge)
    | cons _ _ hl' => rw [ih hl']

/-- **The walk along a chain.** -/
theorem walk_of_chain (h : Chain next stop a l) (hfuel : l.length < fuel) :
    walk next stop body fuel a s = some (steps body l s) := by
  induction h generalizing fuel s with
  | done hge =>
    rcases fuel with _ | fuel
    · simp at hfuel
    · rw [walk, if_neg (Nat.not_lt.mpr hge), steps]
  | @cons a l hlt _ _ ih =>
    rcases fuel with _ | fuel
    · simp at hfuel
    · rw [walk, if_pos hlt, steps]
      rcases body a s with e | t
      · rfl
      · exact ih (by simpa using hfuel)

/-- A walk does not get past an empty record. -/
theorem walk_of_stuck (hlt : a < stop) (hstuck : next a = a) :
    walk next stop body fuel a s ≠ some (.ok s') := by
  induction fuel generalizing s with
  | zero => simp [walk]
  | succ fuel ih =>
    rw [walk, if_pos hlt]
    rcases body a s with e | t
    · simp
    · simp only [hstuck]
      exact ih

/-- **A walk that ends has gone along a chain.** -/
theorem chain_of_walk (hnext : ∀ b, b < stop → b ≤ next b)
    (h : walk next stop body fuel a s = some (.ok s')) :
    ∃ l, Chain next stop a l ∧ steps body l s = .ok s' ∧
      visited next stop body fuel a s = l := by
  induction fuel generalizing a s with
  | zero => simp [walk] at h
  | succ fuel ih =>
    rcases Nat.lt_or_ge a stop with hlt | hge
    · have hne : next a ≠ a := fun hstuck ↦ walk_of_stuck hlt hstuck h
      have hpos : a < next a := lt_of_le_of_ne (hnext a hlt) hne.symm
      rw [walk, if_pos hlt] at h
      rcases hbody : body a s with e | t
      · simp [hbody] at h
      · simp only [hbody] at h
        obtain ⟨l, hl, hsteps, hvisited⟩ := ih h
        refine ⟨a :: l, .cons hlt hpos hl, ?_, ?_⟩
        · rw [steps, hbody]
          exact hsteps
        · rw [visited, if_pos hlt, hbody]
          simp only [hvisited]
    · rw [walk, if_neg (Nat.not_lt.mpr hge), Option.some.injEq, Except.ok.injEq] at h
      refine ⟨[], .done hge, ?_, ?_⟩
      · rw [steps, h]
      · rw [visited, if_neg (Nat.not_lt.mpr hge)]

end Records

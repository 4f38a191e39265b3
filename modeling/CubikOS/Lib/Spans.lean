import Mathlib

/-!
# Spans

The longest part at the front of a list whose elements have some property, and what is left when it
is cut off.

If this is done in turn for a property and its opposite, each part but the first one has at least
one element, for as long as there are any.  So a list of `n` elements is used up after `n + 1` parts
at most, and nothing of it is left out.

* `isGreatest_takeWhile` says that `List.takeWhile` is the longest part.
* `spans p q n l` is how far `n` parts go, and `spans_eq_length` says that this is to the end.
-/

set_option autoImplicit false

namespace Spans

variable {α : Type*} {p q : α → Bool} {l : List α} {n : ℕ}

/-- **`takeWhile` is the longest part at the front.** -/
theorem isGreatest_takeWhile (p : α → Bool) (l : List α) :
    IsGreatest {k | k ≤ l.length ∧ ∀ c ∈ l.take k, p c = true} (l.takeWhile p).length := by
  refine ⟨⟨(List.takeWhile_sublist p).length_le, fun c hc ↦ ?_⟩, ?_⟩
  · rw [← List.prefix_iff_eq_take.mp (List.takeWhile_prefix p)] at hc
    exact List.mem_takeWhile_imp hc
  · rintro k ⟨hk, hall⟩
    have htake : l.takeWhile p = l.take k ++ (l.drop k).takeWhile p := by
      rw [← List.takeWhile_append_of_pos hall, List.take_append_drop]
    rw [htake, List.length_append, List.length_take_of_le hk]
    exact Nat.le_add_right k _

theorem length_takeWhile_add (p : α → Bool) (l : List α) :
    (l.takeWhile p).length + (l.dropWhile p).length = l.length := by
  rw [← List.length_append, List.takeWhile_append_dropWhile]

/-- How far `n` parts go that have the properties `p` and `q` in turn. -/
def spans (p q : α → Bool) : ℕ → List α → ℕ
  | 0, _ => 0
  | n + 1, l => (l.takeWhile p).length + spans q p n (l.dropWhile p)

/-- They do not go beyond the end. -/
theorem spans_le (p q : α → Bool) (n : ℕ) (l : List α) : spans p q n l ≤ l.length := by
  induction n generalizing p q l with
  | zero => exact Nat.zero_le _
  | succ n ih =>
    rw [spans, ← length_takeWhile_add p l]
    exact Nat.add_le_add_left (ih q p _) _

/-- What is cut off is not empty, or the other part is. -/
theorem takeWhile_length_eq_zero_iff (hpq : ∀ c, q c = !p c) (hl : 0 < l.length) :
    (l.takeWhile p).length = 0 ↔ (l.takeWhile q).length ≠ 0 := by
  cases l with
  | nil => exact absurd hl (Nat.lt_irrefl 0)
  | cons c l =>
    rw [List.takeWhile_cons, List.takeWhile_cons, hpq]
    cases p c <;> simp

/-- What is left begins with the other property. -/
theorem head_dropWhile (hpq : ∀ c, q c = !p c) {c : α} (hc : c ∈ (l.dropWhile p).head?) :
    q c = true := by
  have hnot := List.head?_dropWhile_not p l
  rw [Option.mem_def.mp hc] at hnot
  rw [hpq, hnot, Bool.not_false]

/-- A list that begins with the property that comes first. -/
theorem spans_of_head (hpq : ∀ c, q c = !p c) (hn : l.length ≤ n)
    (hhead : ∀ c ∈ l.head?, p c = true) : spans p q n l = l.length := by
  induction n generalizing p q l with
  | zero => rw [spans, Nat.le_zero.mp hn]
  | succ n ih =>
    have hqp : ∀ c, p c = !q c := fun c ↦ by rw [hpq, Bool.not_not]
    have hlength := length_takeWhile_add p l
    have hrest : (l.dropWhile p).length ≤ n := by
      cases l with
      | nil => exact Nat.zero_le n
      | cons c l =>
        rw [List.dropWhile_cons_of_pos (hhead c rfl)]
        exact (List.dropWhile_sublist p).length_le.trans (Nat.le_of_succ_le_succ hn)
    rw [spans, ih hqp hrest fun c hc ↦ head_dropWhile hpq hc, hlength]

/-- **Nothing is left out.** -/
theorem spans_eq_length (hpq : ∀ c, q c = !p c) (hn : l.length < n) :
    spans p q n l = l.length := by
  obtain ⟨n, rfl⟩ := Nat.exists_eq_add_one_of_ne_zero (Nat.ne_zero_of_lt hn)
  have hqp : ∀ c, p c = !q c := fun c ↦ by rw [hpq, Bool.not_not]
  have hrest := (List.dropWhile_sublist p).length_le.trans (Nat.le_of_lt_succ hn)
  rw [spans, spans_of_head hqp hrest fun c hc ↦ head_dropWhile hpq hc, length_takeWhile_add]

end Spans

import Mathlib

/-!
# Tables filled through a running index

A table is a function from positions to values.  `fill` writes a list into it from some position
on, `ring` writes it from position 0 on with an index that starts again when it reaches `n`.

* `map_fill` reads a list back that was filled in.
* `map_ring` says what a ring holds below its index: of the list that was written into it, the end
  that was written since the index was 0 last.
* `map_ring_eq_filter_iff` says when these are some of the values and no others.
-/

set_option autoImplicit false

namespace Slots

variable {α : Type}

/-! ## Filling -/

/-- Write the list into the table, from position `k` on. -/
def fill (cell : ℕ → α) : ℕ → List α → ℕ → α
  | _, [] => cell
  | k, x :: l => fill (Function.update cell k x) (k + 1) l

variable {cell : ℕ → α} {k i : ℕ} {l l' : List α} {x : α}

theorem fill_of_lt (h : i < k) : fill cell k l i = cell i := by
  induction l generalizing cell k with
  | nil => rfl
  | cons x l ih => rw [fill, ih (by omega), Function.update_of_ne (by omega)]

theorem fill_append : fill cell k (l ++ l') = fill (fill cell k l) (k + l.length) l' := by
  induction l generalizing cell k with
  | nil => rfl
  | cons x l ih =>
    rw [List.cons_append, fill, ih, fill, List.length_cons, Nat.add_assoc, Nat.add_comm 1]

/-- **What was filled in is read back.** -/
theorem map_fill : (List.range' k l.length).map (fill cell k l) = l := by
  induction l generalizing cell k with
  | nil => rfl
  | cons x l ih =>
    rw [List.length_cons, List.range'_succ, List.map_cons, fill, ih,
      fill_of_lt (Nat.lt_succ_self k), Function.update_self]

/-! ## Rings -/

/-- Write the list into the table, with an index that runs from 0 to `n - 1` and starts again. -/
def ring (n : ℕ) (cell : ℕ → α) (l : List α) : (ℕ → α) × ℕ :=
  l.foldl (fun p x ↦ (Function.update p.1 p.2 x, (p.2 + 1) % n)) (cell, 0)

variable {n : ℕ}

/-- The index goes up by one, unless it starts again. -/
theorem succ_mod_of_pos {m : ℕ} (h : 0 < (m + 1) % n) : (m + 1) % n = m % n + 1 := by
  rw [← Nat.mod_add_mod] at h ⊢
  rcases Nat.lt_trichotomy (m % n + 1) n with hlt | heq | hgt
  · exact Nat.mod_eq_of_lt hlt
  · rw [heq, Nat.mod_self] at h
    exact absurd h (lt_irrefl 0)
  · rcases Nat.eq_zero_or_pos n with rfl | hn
    · exact Nat.mod_zero _
    · have := Nat.mod_lt m hn
      omega

theorem ring_append_singleton : ring n cell (l ++ [x]) =
    (Function.update (ring n cell l).1 (ring n cell l).2 x, ((ring n cell l).2 + 1) % n) := by
  rw [ring, List.foldl_append]
  rfl

theorem ring_index : (ring n cell l).2 = l.length % n := by
  induction l using List.reverseRecOn with
  | nil => exact (Nat.zero_mod n).symm
  | append_singleton l x ih =>
    rw [ring_append_singleton, ih, List.length_append, List.length_singleton, Nat.mod_add_mod]

/-- **What a ring holds below its index.** -/
theorem map_ring : (List.range (ring n cell l).2).map (ring n cell l).1 =
    l.drop (l.length - l.length % n) := by
  induction l using List.reverseRecOn with
  | nil => rfl
  | append_singleton l x ih =>
    rw [ring_index] at ih ⊢
    rw [List.length_append, List.length_singleton]
    rcases Nat.eq_zero_or_pos ((l.length + 1) % n) with hzero | hpos
    · -- the index starts again
      rw [hzero, Nat.sub_zero, ← List.length_singleton (a := x), ← List.length_append,
        List.drop_length]
      rfl
    · have hsucc := succ_mod_of_pos hpos
      have hle := Nat.mod_le l.length n
      have hbelow : ∀ i ∈ List.range (l.length % n),
          Function.update (ring n cell l).1 (l.length % n) x i = (ring n cell l).1 i :=
        fun i hi ↦ Function.update_of_ne (List.mem_range.mp hi).ne _ _
      rw [hsucc, List.range_succ, List.map_append, ring_append_singleton, ring_index,
        List.map_congr_left hbelow, ih, Nat.add_sub_add_right, List.drop_append_of_le_length
          (Nat.sub_le _ _)]
      simp

/-- A list in which nothing else follows the values with `p`. -/
theorem filter_append_filter {p : α → Bool} (h : l.Pairwise fun a b ↦ p a = true → p b = true) :
    (l.filter fun a ↦ !p a) ++ l.filter p = l := by
  induction l with
  | nil => rfl
  | cons a l ih =>
    obtain ⟨hfirst, hrest⟩ := List.pairwise_cons.mp h
    rcases ha : p a with _ | _
    · rw [List.filter_cons_of_pos (by rw [ha]; rfl), List.filter_cons_of_neg (by rw [ha]; decide),
        List.cons_append, ih hrest]
    · have hall : ∀ b ∈ a :: l, p b = true := by
        intro b hb
        rcases List.mem_cons.mp hb with rfl | hb
        · exact ha
        · exact hfirst b hb ha
      have hnone : ∀ b ∈ a :: l, ¬ (!p b) = true := by
        intro b hb
        rw [hall b hb]
        decide
      rw [List.filter_eq_self.mpr hall, List.filter_eq_nil_iff.mpr hnone]
      rfl

/-- **When a ring holds the values with `p`**, of which there are less than `n`, and nothing else:
the other values were written before them, and the index started again after the last of these. -/
theorem map_ring_eq_filter_iff {p : α → Bool} (hp : (l.filter p).length < n) :
    (List.range (ring n cell l).2).map (ring n cell l).1 = l.filter p ↔
      n ∣ (l.filter fun a ↦ !p a).length ∧ l.Pairwise fun a b ↦ p a = true → p b = true := by
  have hsum : (l.filter p).length + (l.filter fun a ↦ !p a).length = l.length :=
    (List.length_eq_length_filter_add p).symm
  have hle := Nat.mod_le l.length n
  rw [map_ring]
  constructor
  · intro h
    have hlength := congrArg List.length h
    rw [List.length_drop] at hlength
    have hothers : (l.filter fun a ↦ !p a).length = l.length - l.length % n := by omega
    refine ⟨hothers ▸ Nat.dvd_sub_mod l.length, ?_⟩
    -- all that satisfy `p` are in the second part
    have hsplit := congrArg (List.filter p) (List.take_append_drop (l.length - l.length % n) l)
    have hend : ∀ b ∈ l.drop (l.length - l.length % n), p b = true := by
      intro b hb
      rw [h] at hb
      exact (List.mem_filter.mp hb).2
    rw [List.filter_append, List.filter_eq_self.mpr hend, h] at hsplit
    have hnone : (l.take (l.length - l.length % n)).filter p = [] := by
      have := congrArg List.length hsplit
      rw [List.length_append] at this
      exact List.eq_nil_of_length_eq_zero (by omega)
    rw [← List.take_append_drop (l.length - l.length % n) l]
    refine List.pairwise_append.mpr ⟨?_, ?_, fun a _ b hb _ ↦ hend b hb⟩
    · exact List.pairwise_of_forall_mem_list fun a ha b _ hpa ↦
        absurd hpa (List.filter_eq_nil_iff.mp hnone a ha)
    · exact List.pairwise_of_forall_mem_list fun a _ b hb _ ↦ hend b hb
  · rintro ⟨⟨c, hc⟩, hpairwise⟩
    have hmod : l.length % n = (l.filter p).length := by
      rw [← hsum, hc, Nat.add_mul_mod_self_left, Nat.mod_eq_of_lt hp]
    have hdrop : l.length - l.length % n = (l.filter fun a ↦ !p a).length := by omega
    have hparts := filter_append_filter hpairwise
    calc l.drop (l.length - l.length % n)
      _ = ((l.filter fun a ↦ !p a) ++ l.filter p).drop (l.filter fun a ↦ !p a).length := by
        rw [hparts, hdrop]
      _ = l.filter p := List.drop_left

/-! ## The last value -/

/-- Of the values with a property there is a last one. -/
theorem exists_last {p : α → Prop} (hx : x ∈ l) (hp : p x) :
    ∃ l₁ y l₂, l = l₁ ++ y :: l₂ ∧ p y ∧ ∀ z ∈ l₂, ¬ p z := by
  induction l using List.reverseRecOn with
  | nil => exact absurd hx List.not_mem_nil
  | append_singleton l y ih =>
    by_cases hy : p y
    · exact ⟨l, y, [], rfl, hy, by simp⟩
    · have hne : x ≠ y := fun heq ↦ hy (heq ▸ hp)
      have hmem : x ∈ l := by simpa [hne] using hx
      obtain ⟨l₁, y', l₂, rfl, hy', hrest⟩ := ih hmem
      refine ⟨l₁, y', l₂ ++ [y], by simp, hy', fun z hz ↦ ?_⟩
      rcases List.mem_append.mp hz with hz | hz
      · exact hrest z hz
      · rwa [List.mem_singleton.mp hz]

end Slots

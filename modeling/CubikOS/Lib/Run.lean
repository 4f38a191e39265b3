import Mathlib

/-!
# First-fit search for a run of free positions

Positions are numbered, and some of them are `free`.  A search goes through them in order, looking
for `n` free ones in a row, and takes the first it finds.  Two things make it less plain than that:
a run may only begin where `start` allows it, and positions to `skip` are passed over without
breaking a run.

* `Run v t`: the positions from `v` up to `t` are free or skipped, and `v` is free.
* `Stretch n v t`: a run with `n` free positions in it, and `First n v t` the one that ends first.
* `Idle` and `Active` are what such a search knows when it has come to a position, with one lemma
  for each thing that can happen there.

Free positions are counted from zero, by `Nat.count`, so that nothing depends on where a run
starts: a run has as many of them as the count grows by.
-/

set_option autoImplicit false

namespace Runs

section Run

variable (start free skip : ℕ → Prop)

/-- A run of free positions from `v` up to `t`, skipped ones left out of account. -/
structure Run (v t : ℕ) : Prop where
  /-- It may begin here. -/
  begins : start v
  /-- It has begun. -/
  lt : v < t
  /-- It begins with a free position. -/
  head : free v
  /-- Nothing breaks it. -/
  mem : ∀ x, v ≤ x → x < t → free x ∨ skip x

variable [DecidablePred free]

/-- A run with `n` free positions. -/
structure Stretch (n v t : ℕ) : Prop extends Run start free skip v t where
  /-- It has `n` free positions. -/
  count : Nat.count free t = Nat.count free v + n

/-- The stretch that ends first. -/
structure First (n v t : ℕ) : Prop extends Stretch start free skip n v t where
  /-- No other ends before it. -/
  first : ∀ v' t', Stretch start free skip n v' t' → t ≤ t'

/-- No run is open at `t`, and no stretch has ended. -/
structure Idle (n t : ℕ) : Prop where
  /-- Nothing is being counted. -/
  none : ∀ v, ¬ Run start free skip v t
  /-- Nothing was overlooked. -/
  before : ∀ v t', Stretch start free skip n v t' → t < t'

/-- The run from `v` on is the first one open at `t`, it lacks `left`, and no stretch has ended. -/
structure Active (n t v left : ℕ) : Prop where
  /-- It is being counted. -/
  run : Run start free skip v t
  /-- It is the first. -/
  first : ∀ u, Run start free skip u t → v ≤ u
  /-- What it lacks and its free positions make up `n`. -/
  lacks : left + Nat.count free t = Nat.count free v + n
  /-- It lacks something. -/
  lacks_pos : 0 < left
  /-- Nothing was overlooked. -/
  before : ∀ v t', Stretch start free skip n v t' → t < t'

end Run

variable {start free skip : ℕ → Prop} {n v t : ℕ}

theorem Run.self (hs : start t) (hf : free t) : Run start free skip t (t + 1) := by
  refine ⟨hs, Nat.lt_succ_self t, hf, fun x h1 h2 ↦ ?_⟩
  rw [show x = t by omega]
  exact Or.inl hf

theorem Run.succ (hr : Run start free skip v t) (ht : free t ∨ skip t) :
    Run start free skip v (t + 1) := by
  refine ⟨hr.begins, Nat.lt_succ_of_lt hr.lt, hr.head, fun x h1 h2 ↦ ?_⟩
  rcases Nat.lt_succ_iff_lt_or_eq.mp h2 with h2 | rfl
  · exact hr.mem x h1 h2
  · exact ht

/-- A run is one position longer than another one, or has just begun. -/
theorem Run.of_succ (hr : Run start free skip v (t + 1)) :
    v = t ∨ Run start free skip v t := by
  rcases Nat.lt_succ_iff_lt_or_eq.mp hr.lt with hlt | heq
  · exact Or.inr ⟨hr.begins, hlt, hr.head, fun x h1 h2 ↦ hr.mem x h1 (Nat.lt_succ_of_lt h2)⟩
  · exact Or.inl heq

/-- A position that is neither free nor skipped breaks every run. -/
theorem not_run_succ (hf : ¬ free t) (hs : ¬ skip t) : ¬ Run start free skip v (t + 1) :=
  fun hr ↦ (hr.mem t (Nat.le_of_lt_succ hr.lt) (Nat.lt_succ_self t)).elim hf hs

section Count

variable [DecidablePred free]

theorem count_succ_of_free (hf : free t) : Nat.count free (t + 1) = Nat.count free t + 1 :=
  Nat.count_succ_eq_succ_count_iff.mpr hf

theorem count_succ_of_not_free (hf : ¬ free t) : Nat.count free (t + 1) = Nat.count free t :=
  Nat.count_succ_eq_count_iff.mpr hf

/-- Free positions in a row are a stretch. -/
theorem Stretch.of_forall (hs : start v) (hn : 0 < n)
    (hfree : ∀ x, v ≤ x → x < v + n → free x) : Stretch start free skip n v (v + n) := by
  refine ⟨⟨hs, by omega, hfree v (le_refl v) (by omega), fun x h1 h2 ↦ Or.inl (hfree x h1 h2)⟩, ?_⟩
  rw [Nat.count_add, Nat.count_iff_forall.mpr fun k hk ↦ hfree (v + k) (by omega) (by omega)]

/-- A stretch takes up at least as much room as it has free positions. -/
theorem Stretch.le (h : Stretch start free skip n v t) : v + n ≤ t := by
  have hcount := h.count
  obtain ⟨k, rfl⟩ := Nat.exists_eq_add_of_le (Nat.le_of_lt h.lt)
  rw [Nat.count_add] at hcount
  have hle : Nat.count (fun i ↦ free (v + i)) k ≤ k := Nat.count_le _
  omega

/-- A stretch that ends with a position that is not free has ended before it. -/
theorem Stretch.of_succ (h : Stretch start free skip n v (t + 1)) (hf : ¬ free t) :
    Stretch start free skip n v t := by
  rcases h.toRun.of_succ with rfl | hr
  · exact absurd h.head hf
  · exact ⟨hr, by rw [← count_succ_of_not_free hf, h.count]⟩

/-- Only one stretch is the first. -/
theorem First.unique {v' t' : ℕ} (h : First start free skip n v t)
    (h' : First start free skip n v' t') : v = v' ∧ t = t' := by
  obtain rfl : t = t' := le_antisymm (h.first v' t' h'.toStretch) (h'.first v t h.toStretch)
  refine ⟨Nat.count_injective h.head h'.head ?_, rfl⟩
  have := h.count
  have := h'.count
  omega

/-! ## Step by step -/

theorem before_succ (hb : ∀ v t', Stretch start free skip n v t' → t < t')
    (hnone : ∀ v, ¬ Stretch start free skip n v (t + 1)) :
    ∀ v t', Stretch start free skip n v t' → t + 1 < t' := by
  intro v t' h
  have hlt := hb v t' h
  rcases Nat.eq_or_lt_of_le (Nat.succ_le_of_lt hlt) with rfl | hlt
  · exact absurd h (hnone v)
  · exact hlt

/-- Nothing ends with a position that is not free. -/
theorem before_succ_of_not_free (hb : ∀ v t', Stretch start free skip n v t' → t < t')
    (hf : ¬ free t) : ∀ v t', Stretch start free skip n v t' → t + 1 < t' :=
  before_succ hb fun v h ↦ absurd (hb v t (h.of_succ hf)) (lt_irrefl t)

theorem Idle.zero : Idle start free skip n 0 where
  none v hr := absurd hr.lt (Nat.not_lt_zero v)
  before _ _ h := Nat.zero_lt_of_lt h.lt

/-- A position to be skipped, with no run open. -/
theorem Idle.skipped (h : Idle start free skip n t) (hf : ¬ free t) :
    Idle start free skip n (t + 1) where
  none v hr := by
    rcases hr.of_succ with rfl | hr'
    · exact hf hr.head
    · exact h.none v hr'
  before := before_succ_of_not_free h.before hf

/-- A position to be skipped, with a run open. -/
theorem Active.skipped {left : ℕ} (h : Active start free skip n t v left) (hf : ¬ free t)
    (hs : skip t) : Active start free skip n (t + 1) v left where
  run := h.run.succ (Or.inr hs)
  first u hr := by
    rcases hr.of_succ with rfl | hr'
    · exact absurd hr.head hf
    · exact h.first u hr'
  lacks := by rw [count_succ_of_not_free hf, h.lacks]
  lacks_pos := h.lacks_pos
  before := before_succ_of_not_free h.before hf

/-- The run has at least the position it began with. -/
theorem Active.left_lt {left : ℕ} (h : Active start free skip n t v left) : left < n := by
  have hlacks := h.lacks
  have hcount : Nat.count free v < Nat.count free t := Nat.count_strict_mono h.run.head h.run.lt
  omega

/-- A position in use closes every run. -/
theorem Idle.of_used (hb : ∀ v t', Stretch start free skip n v t' → t < t') (hf : ¬ free t)
    (hs : ¬ skip t) : Idle start free skip n (t + 1) where
  none _ := not_run_succ hf hs
  before := before_succ_of_not_free hb hf

/-- With no run open, nothing of more than one position can end here. -/
theorem Idle.not_stretch_succ (h : Idle start free skip n t) (hn : n ≠ 1) :
    ¬ Stretch start free skip n v (t + 1) := by
  intro hs
  rcases hs.toRun.of_succ with rfl | hr
  · have hcount := hs.count
    rw [count_succ_of_free hs.head] at hcount
    omega
  · exact h.none v hr

/-- A free position where no run may begin. -/
theorem Idle.pass (h : Idle start free skip n t) (hs : ¬ start t) :
    Idle start free skip n (t + 1) where
  none v hr := by
    rcases hr.of_succ with rfl | hr'
    · exact hs hr.begins
    · exact h.none v hr'
  before := before_succ h.before fun v hv ↦ by
    rcases hv.toRun.of_succ with rfl | hr
    · exact hs hv.begins
    · exact h.none v hr

/-- A free position where a run begins. -/
theorem Idle.begin (h : Idle start free skip n t) (hs : start t) (hf : free t) (hn : 2 ≤ n) :
    Active start free skip n (t + 1) t (n - 1) where
  run := Run.self hs hf
  first u hr := by
    rcases hr.of_succ with rfl | hr'
    · exact le_refl u
    · exact absurd hr' (h.none u)
  lacks := by
    rw [count_succ_of_free hf]
    omega
  lacks_pos := by omega
  before := before_succ h.before fun _ ↦ h.not_stretch_succ (by omega)

/-- A free position that is all that is wanted. -/
theorem Idle.finish (h : Idle start free skip 1 t) (hs : start t) (hf : free t) :
    First start free skip 1 t (t + 1) where
  toRun := Run.self hs hf
  count := count_succ_of_free hf
  first v t' hv := h.before v t' hv

/-- A free position that continues the run. -/
theorem Active.next {left : ℕ} (h : Active start free skip n t v left) (hf : free t)
    (hleft : 2 ≤ left) : Active start free skip n (t + 1) v (left - 1) where
  run := h.run.succ (Or.inl hf)
  first u hr := by
    rcases hr.of_succ with rfl | hr'
    · exact Nat.le_of_lt h.run.lt
    · exact h.first u hr'
  lacks := by
    have := h.lacks
    rw [count_succ_of_free hf]
    omega
  lacks_pos := by omega
  before := before_succ h.before fun u hu ↦ by
    -- the run that is open began no later, and still lacks something
    have hcount := hu.count
    have hleft' := h.lacks
    have hmono : Nat.count free v ≤ Nat.count free u := by
      rcases hu.toRun.of_succ with rfl | hr
      · exact Nat.count_monotone free (Nat.le_of_lt h.run.lt)
      · exact Nat.count_monotone free (h.first u hr)
    rw [count_succ_of_free hf] at hcount
    omega

/-- A free position that completes the run. -/
theorem Active.finish (h : Active start free skip n t v 1) (hf : free t) :
    First start free skip n v (t + 1) where
  toRun := h.run.succ (Or.inl hf)
  count := by
    have := h.lacks
    rw [count_succ_of_free hf]
    omega
  first v' t' hv := h.before v' t' hv

end Count

end Runs

import Mathlib

/-!
# What is in service

Some things are in service, and the smaller goes before the larger.  Something new is taken on if
it goes before everything that is in service, and `finish` takes off what goes first.  So what is
taken on last is taken off first: `finish_insert`.  `finish_eq_self` says when there is nothing
to take off.
-/

set_option autoImplicit false

namespace InService

variable {α : Type} [LinearOrder α] {s : Finset α} {a : α}

/-- `a` goes before everything in service. -/
def Before (a : α) (s : Finset α) : Prop := ∀ b ∈ s, a < b

instance : Decidable (Before a s) := inferInstanceAs (Decidable (∀ b ∈ s, a < b))

/-- What goes first is taken off. -/
def finish (s : Finset α) : Finset α := if h : s.Nonempty then s.erase (s.min' h) else s

@[simp] theorem finish_empty : finish (∅ : Finset α) = ∅ := rfl

/-- **What is taken on last is taken off first.** -/
theorem finish_insert (h : Before a s) : finish (insert a s) = s := by
  have hmin : (insert a s).min' (Finset.insert_nonempty a s) = a := by
    refine le_antisymm (Finset.min'_le _ _ (Finset.mem_insert_self a s)) ?_
    refine Finset.le_min' _ _ _ fun b hb ↦ ?_
    rcases Finset.mem_insert.mp hb with rfl | hb
    · exact le_rfl
    · exact (h b hb).le
  rw [finish, dif_pos (Finset.insert_nonempty a s), hmin]
  exact Finset.erase_insert fun ha ↦ lt_irrefl a (h a ha)

theorem finish_eq_self : finish s = s ↔ s = ∅ := by
  constructor
  · intro h
    by_contra hne
    have hs := Finset.nonempty_iff_ne_empty.mpr hne
    rw [finish, dif_pos hs, Finset.erase_eq_self] at h
    exact h (Finset.min'_mem s hs)
  · rintro rfl
    rfl

end InService

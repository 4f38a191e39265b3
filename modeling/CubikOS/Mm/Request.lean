import CubikOS.Mm.Align
import CubikOS.Mm.Free

/-!
# Which requests are served

When `PM_AllocatePages` returns `NULL`, and which order `PM_Allocate` asks it for.

`PM_AllocatePages` looks at counters only, so what it takes to know whether a request is served is
that the counters are the lengths of the lists, and what it takes for the call to return at all is
that the first block of a list is free and of the order of the list.

`PM_Allocate` rounds the size up to a power of two, divides by the size of a page, and searches for
the order of the quotient.  Half a page and less becomes no page at all, for which the search runs
past order 0, to 255.
-/

set_option autoImplicit false

namespace CubikOS

open Intrusive Buddy

/-! ## Requests for an order -/

/-- The lists as far as `PM_AllocatePages` depends on them: proper lists, as long as their counters
say, of free blocks of their order. -/
structure OrderedLists (s : PmState) (L : ListIndex → List ℕ) : Prop where
  /-- The links spell out the lists. -/
  chain : ∀ k, Chain s.links (.handle k) ((L k).map .frame)
  /-- Every counter is the length of its list. -/
  count : ∀ k, s.count k = (L k).length
  /-- Every list has blocks of its own order. -/
  order : ∀ k, ∀ p ∈ L k, (s.page p).order = k
  /-- What is listed is marked free. -/
  free : ∀ k, ∀ p ∈ L k, (s.page p).free = true

theorem WellFormed.orderedLists {s : PmState} {L : ListIndex → List ℕ} {A : Set Block}
    (hwf : WellFormed s L A) : OrderedLists s L :=
  ⟨hwf.lists.chain, hwf.count, hwf.order, fun k p hp ↦ (hwf.blocks.block p ⟨k, hp⟩).free⟩

/-- A block can be split as often as its order says. -/
theorem expandLoop_returns {n o p : ℕ} {s : PmState} (ho : (s.page p).order = o)
    (hmax : o ≤ pageMaxOrder) (hn : n ≤ o) : ∃ s', expandLoop n s p = .ok (p, s') := by
  induction n generalizing s o with
  | zero => exact ⟨s, rfl⟩
  | succ n ih =>
    rcases o with _ | o
    · omega
    have h : o < pageMaxOrder + 1 := by omega
    rw [expandLoop, pmExpandPage_succ ho h]
    exact ih (o := o) (by rw [expandState_page_self]) (by omega) (by omega)

section Served

variable {s : PmState} {L : ListIndex → List ℕ} {order : ℕ}

theorem OrderedLists.selectPage (hL : OrderedLists s L) {k : ListIndex} (hk : s.count k ≠ 0) :
    ∃ p ∈ L k, selectPage s k = .ok p := by
  rcases hlist : L k with _ | ⟨p, rest⟩
  · exact absurd (by rw [hL.count, hlist]; rfl) hk
  · have hp : p ∈ L k := by rw [hlist]; exact List.mem_cons_self
    have hnext : (s.links (.handle k)).next = some (.frame p) := by
      rw [(hL.chain k).next_head, hlist]; rfl
    refine ⟨p, List.mem_cons_self, ?_⟩
    rw [CubikOS.selectPage, hnext]
    exact if_pos (hL.free k p hp)

/-- With nothing to be had, the call returns `NULL`. -/
theorem OrderedLists.returns_none (hL : OrderedLists s L)
    (h : pageMaxOrder < order ∨ ∀ k : ListIndex, order ≤ k → L k = []) :
    pmAllocatePages s order = .ok (none, s) := by
  rw [pmAllocatePages]
  split
  · rfl
  · rename_i hle
    rcases hsel : selectList s (pageMaxOrder + 1) order with _ | k
    · rfl
    · obtain ⟨hk, hcount, -⟩ := selectList_eq_some hsel
      have hnil := (h.resolve_left hle) k hk
      exact absurd (by rw [hL.count, hnil]; rfl) hcount

/-- With a block to be had, the call returns one. -/
theorem OrderedLists.returns_some (hL : OrderedLists s L) (hle : order ≤ pageMaxOrder)
    (h : ∃ k : ListIndex, order ≤ k ∧ L k ≠ []) :
    ∃ p s', pmAllocatePages s order = .ok (some p, s') := by
  obtain ⟨k, hk, hne⟩ := h
  rcases hsel : selectList s (pageMaxOrder + 1) order with _ | m
  · have hzero := selectList_eq_none hsel (by omega) k hk
    rw [hL.count, List.length_eq_zero_iff] at hzero
    exact absurd hzero hne
  · obtain ⟨hm, hcount, -⟩ := selectList_eq_some hsel
    obtain ⟨p, hp, hpage⟩ := hL.selectPage hcount
    have horder : ((popState s m p).page p).order = m := hL.order m p hp
    obtain ⟨s', hs'⟩ := expandLoop_returns (n := m - order) horder (by omega) (by omega)
    refine ⟨p, s'.setPage p { s'.page p with free := false }, ?_⟩
    have hloop : expandLoop (m - order) ((s.setCount m (s.count m - 1)).setLinks
        (linkedListRemove (s.setCount m (s.count m - 1)).links (.frame p))) p = .ok (p, s') := hs'
    rw [pmAllocatePages, if_neg (by omega), hsel]
    simp only [hpage, hloop]

/-- A call that returns `NULL` has nothing to give. -/
theorem OrderedLists.eq_nil_of_none {s' : PmState} (hL : OrderedLists s L)
    (hle : order ≤ pageMaxOrder) (hrun : pmAllocatePages s order = .ok (none, s')) :
    ∀ k : ListIndex, order ≤ k → L k = [] := by
  intro k hk
  by_contra hne
  obtain ⟨p, t, hsome⟩ := hL.returns_some hle ⟨k, hk, hne⟩
  rw [hsome] at hrun
  simp at hrun

/-- **A call fails exactly when it must, and then changes nothing.**  It returns in any case. -/
theorem pmAllocatePages_fails_iff (hL : OrderedLists s L) (order : ℕ) :
    ∃ r s', pmAllocatePages s order = .ok (r, s') ∧
      (r = none ↔ pageMaxOrder < order ∨ ∀ k : ListIndex, order ≤ k → L k = []) ∧
      (r = none → s' = s) := by
  by_cases h : pageMaxOrder < order ∨ ∀ k : ListIndex, order ≤ k → L k = []
  · exact ⟨none, s, hL.returns_none h, ⟨fun _ ↦ h, fun _ ↦ rfl⟩, fun _ ↦ rfl⟩
  · have hsome : ∃ k : ListIndex, order ≤ k ∧ L k ≠ [] := by
      by_contra hcon
      exact h (Or.inr fun k hk ↦ by_contra fun hne ↦ hcon ⟨k, hk, hne⟩)
    obtain ⟨p, s', hrun⟩ := hL.returns_some (by omega) hsome
    exact ⟨some p, s', hrun, ⟨fun hr ↦ by simp at hr, fun hr ↦ absurd hr h⟩,
      fun hr ↦ by simp at hr⟩

end Served

/-- With a single free frame, a request for two is refused. -/
theorem pmAllocatePages_fails_iff_oneFrame :
    OrderedLists oneFrame (singleLists 0 (pageSlot pageMaxSize)) ∧
      pmAllocatePages oneFrame 1 = .ok (none, oneFrame) := by
  have hL := wellFormed_oneFrame.orderedLists
  refine ⟨hL, ?_⟩
  obtain ⟨r, s', hrun, hiff, hsame⟩ := pmAllocatePages_fails_iff hL 1
  have hr : r = none := by
    refine hiff.mpr (Or.inr fun k hk ↦ ?_)
    have hne : k ≠ 0 := by rintro rfl; exact absurd hk (by decide)
    simp [singleLists, hne]
  rw [hrun, hr, hsame hr]

/-! ## Requests for a size -/

/-- `PM_Allocate(size)`. -/
def pmAllocate (s : PmState) (size : ℕ) : Except Fault (Option ℕ × PmState) :=
  if size > pageMaxSize ∨ size = 0 then .ok (none, s)
  else pmAllocatePages s (pageSizeOrder (pageSizeAlign size / archPageSize))

/-- The order of a power of two is its exponent. -/
theorem pageSizeOrder_two_pow : ∀ k : Fin 11, pageSizeOrder (2 ^ (k : ℕ)) = k := by decide

theorem pageSizeOrder_zero : pageSizeOrder 0 = 255 := by decide

/-- Above half a page the order is that of the least block that is large enough. -/
theorem pmAllocate_large {s : PmState} {size k : ℕ} (hhalf : 2048 < size)
    (hmax : size ≤ pageMaxSize) (hk : size ≤ archPageSize * 2 ^ k)
    (hleast : ∀ j, size ≤ archPageSize * 2 ^ j → k ≤ j) :
    k ≤ pageMaxOrder ∧ pmAllocate s size = pmAllocatePages s k := by
  have hpage : ∀ j, archPageSize * 2 ^ j = 2 ^ (12 + j) := fun j ↦ by
    rw [pow_add, show archPageSize = 2 ^ 12 from rfl]
  have hclog : Nat.clog 2 size ≤ 12 + k := by
    rw [hpage] at hk
    exact (Nat.clog_le_iff_le_pow (by decide)).mpr hk
  have hlow : 11 < Nat.clog 2 size := (Nat.lt_clog_iff_pow_lt (by decide)).mpr hhalf
  have heq : Nat.clog 2 size = 12 + k := by
    have hfit := hleast (Nat.clog 2 size - 12) (by
      rw [hpage, show 12 + (Nat.clog 2 size - 12) = Nat.clog 2 size by omega]
      exact Nat.le_pow_clog (by decide) size)
    omega
  have hk10 : k ≤ pageMaxOrder := hleast pageMaxOrder hmax
  have halign : pageSizeAlign size / archPageSize = 2 ^ k := by
    rw [pageSizeAlign_eq (by omega) (by dsimp only [pageMaxSize] at hmax; omega), heq, pow_add]
    exact Nat.mul_div_cancel_left _ (by decide)
  refine ⟨hk10, ?_⟩
  rw [pmAllocate, if_neg (by omega), halign]
  exact congrArg _ (pageSizeOrder_two_pow ⟨k, Nat.lt_succ_of_le hk10⟩)

/-- Up to half a page there is no order: `NULL`, whatever is free. -/
theorem pmAllocate_small {s : PmState} {size : ℕ} (hpos : 1 ≤ size) (hhalf : size ≤ 2048) :
    pmAllocate s size = .ok (none, s) := by
  have halign : pageSizeAlign size / archPageSize = 0 := by
    rw [pageSizeAlign_eq hpos (by omega)]
    refine Nat.div_eq_of_lt (lt_of_le_of_lt ?_ (show 2 ^ 11 < archPageSize by decide))
    exact Nat.pow_le_pow_right (by decide) ((Nat.clog_le_iff_le_pow (by decide)).mpr hhalf)
  rw [pmAllocate, if_neg (by dsimp only [pageMaxSize]; omega), halign, pageSizeOrder_zero,
    pmAllocatePages, if_pos (by decide)]

/-- What is expected of `PM_Allocate(size)` when `k` is the least order that is large enough: it is
`PM_AllocatePages(k)`, it fails only when there is no such block, and what it returns is large
enough. -/
structure Serves (s : PmState) (L : ListIndex → List ℕ) (size k : ℕ) : Prop where
  /-- The two calls are the same. -/
  same : pmAllocate s size = pmAllocatePages s k
  /-- `NULL` means that there is no free block of that order or a higher one. -/
  null : ∀ s', pmAllocate s size = .ok (none, s') → ∀ j : ListIndex, k ≤ j → L j = []
  /-- A block that is returned has enough bytes. -/
  fits : ∀ p s', pmAllocate s size = .ok (some p, s') →
    size ≤ archPageSize * 2 ^ (s'.page p).order

/-- **Requests for more than half a page are served.**  Those for less are refused, which is right
only when there is nothing free at all. -/
theorem pmAllocate_serves_iff {s : PmState} {L : ListIndex → List ℕ} {size k : ℕ}
    (hL : OrderedLists s L) (hpos : 1 ≤ size) (hmax : size ≤ pageMaxSize)
    (hk : size ≤ archPageSize * 2 ^ k) (hleast : ∀ j, size ≤ archPageSize * 2 ^ j → k ≤ j) :
    Serves s L size k ↔ 2048 < size ∨ ∀ j, L j = [] := by
  constructor
  · intro hS
    by_contra hcon
    rw [not_or] at hcon
    have hk0 : k = 0 :=
      Nat.le_zero.mp (hleast 0 (by rw [pow_zero]; dsimp only [archPageSize]; omega))
    refine hcon.2 fun j ↦ hS.null s (pmAllocate_small hpos (by omega)) j (by omega)
  · rintro (hhalf | hempty)
    · obtain ⟨hk10, hsame⟩ := pmAllocate_large (s := s) hhalf hmax hk hleast
      refine ⟨hsame, fun s' hrun ↦ ?_, fun p s' hrun ↦ ?_⟩
      · rw [hsame] at hrun
        exact hL.eq_nil_of_none hk10 hrun
      · rw [hsame] at hrun
        have hlists : ∀ (j : ListIndex) (q : ℕ), selectPage s j = .ok q → (s.page q).order = j :=
          fun j q hq ↦ hL.order j q (mem_of_selectPage (hL.chain j) hq)
        have horder : (s'.page p).order = k :=
          congrArg Block.order (pmAllocatePages_any hrun hlists).1
        rwa [horder]
    · have hnone : ∀ order, pmAllocatePages s order = .ok (none, s) := fun order ↦
        hL.returns_none (Or.inr fun j _ ↦ hempty j)
      have hnull : pmAllocate s size = .ok (none, s) := by
        rw [pmAllocate]
        split
        · rfl
        · exact hnone _
      refine ⟨hnull.trans (hnone k).symm, fun s' _ j _ ↦ hempty j, fun p s' hrun ↦ ?_⟩
      rw [hnull] at hrun
      simp at hrun

/-- A whole page is served. -/
theorem pmAllocate_serves_iff_page :
    Serves oneFrame (singleLists 0 (pageSlot pageMaxSize)) 4096 0 :=
  (pmAllocate_serves_iff wellFormed_oneFrame.orderedLists (by decide) (by decide) (by decide)
    fun j _ ↦ Nat.zero_le j).mpr (Or.inl (by decide))

/-- **A single byte is refused**, although a frame is free. -/
theorem pmAllocate_refuses_byte :
    OrderedLists oneFrame (singleLists 0 (pageSlot pageMaxSize)) ∧
      pmAllocate oneFrame 1 = .ok (none, oneFrame) ∧
      (∃ p s', pmAllocatePages oneFrame 0 = .ok (some p, s')) ∧
      ¬ Serves oneFrame (singleLists 0 (pageSlot pageMaxSize)) 1 0 := by
  have hsmall := pmAllocate_small (s := oneFrame) (le_refl 1) (by decide)
  obtain ⟨s', hrun, -⟩ := alloc_oneFrame
  refine ⟨wellFormed_oneFrame.orderedLists, hsmall, ⟨_, s', hrun⟩, fun hS ↦ ?_⟩
  have hsame := hS.same
  rw [hsmall, hrun] at hsame
  simp at hsame

end CubikOS

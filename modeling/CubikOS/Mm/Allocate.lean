import CubikOS.Mm.Split

/-!
# Allocating a block

`PM_AllocatePages`, from the search for a list to the block it returns.

`Sound s L taken` is the invariant that survives everything the kernel does to the allocator
without freeing: it asks that a block is at least as large as the list it sits on promises, not
that it has exactly that size, and it does not mention the counters.  `pmAllocatePages_eq` runs a
call on such a state: once the search has settled on a list, the call pops the first block of it,
cuts it down and returns its lower end, or dereferences null if the list is empty.

A state is `WellFormed` when in addition sizes and counters are what they should be, and on those
the call is a textbook buddy allocation: `pmAllocatePages_buddy_step`.
-/

set_option autoImplicit false

namespace CubikOS

open Intrusive Buddy

/-! ## The search for a list -/

theorem selectList_eq_some {s : PmState} {fuel i : ℕ} {k : ListIndex}
    (h : selectList s fuel i = some k) :
    i ≤ k ∧ s.count k ≠ 0 ∧ ∀ j : ListIndex, i ≤ j → j < k → s.count j = 0 := by
  induction fuel generalizing i with
  | zero => simp [selectList] at h
  | succ fuel ih =>
    rw [selectList] at h
    split at h
    · rename_i hi
      split at h
      · rename_i hc
        rw [Option.some.injEq] at h
        subst h
        refine ⟨le_refl _, hc, fun j h1 h2 ↦ ?_⟩
        exact absurd (Fin.lt_def.mp h2) (by simp only; omega)
      · rename_i hc
        obtain ⟨h1, h2, h3⟩ := ih h
        refine ⟨by omega, h2, fun j hij hjk ↦ ?_⟩
        rcases Nat.eq_or_lt_of_le hij with hij | hij
        · obtain rfl : (⟨i, hi⟩ : ListIndex) = j := Fin.ext hij
          simpa using hc
        · exact h3 j hij hjk
    · simp at h

theorem selectList_of_first {s : PmState} {fuel i : ℕ} {k : ListIndex} (hik : i ≤ k)
    (hfuel : k < i + fuel) (hk : s.count k ≠ 0)
    (hfirst : ∀ j : ListIndex, i ≤ j → j < k → s.count j = 0) :
    selectList s fuel i = some k := by
  induction fuel generalizing i with
  | zero => omega
  | succ fuel ih =>
    have hi : i < pageMaxOrder + 1 := by omega
    rw [selectList, dif_pos hi]
    rcases Nat.eq_or_lt_of_le hik with heq | hlt
    · obtain rfl : (⟨i, hi⟩ : ListIndex) = k := Fin.ext heq
      rw [if_pos hk]
    · rw [if_neg (by simpa using hfirst ⟨i, hi⟩ (le_refl i) hlt)]
      exact ih (by omega) (by omega) fun j h1 h2 ↦ hfirst j (by omega) h2

theorem selectList_eq_none {s : PmState} {fuel i : ℕ} (h : selectList s fuel i = none)
    (hfuel : pageMaxOrder + 1 ≤ i + fuel) (j : ListIndex) (hj : i ≤ j) : s.count j = 0 := by
  induction fuel generalizing i with
  | zero => omega
  | succ fuel ih =>
    have hi : i < pageMaxOrder + 1 := by omega
    rw [selectList, dif_pos hi] at h
    split at h
    · simp at h
    · rename_i hc
      rcases Nat.eq_or_lt_of_le hj with heq | hlt
      · obtain rfl : (⟨i, hi⟩ : ListIndex) = j := Fin.ext heq
        simpa using hc
      · exact ih h (by omega) hlt

/-! ## One call -/

/-- The lists are proper lists of free blocks, none of them smaller than its list promises, that
overlap neither each other nor `taken`. -/
structure Sound (s : PmState) (L : ListIndex → List ℕ) (taken : Set ℕ) : Prop where
  /-- The links spell out the lists. -/
  lists : FreeLists s L
  /-- What is listed is a free block. -/
  blocks : Blocks s (Listed L) taken
  /-- A block is no smaller than the list it is on. -/
  order : ∀ k, ∀ p ∈ L k, k ≤ (s.page p).order ∧ (s.page p).order ≤ pageMaxOrder

/-- The state when the first block of list `m` has been taken off it. -/
def popState (s : PmState) (m : ListIndex) (p : ℕ) : PmState :=
  (s.setCount m (s.count m - 1)).setLinks (linkedListRemove s.links (.frame p))

section Pop

variable {s : PmState} {L : ListIndex → List ℕ} {T : Set ℕ} {m : ListIndex} {p : ℕ}
  {rest : List ℕ}

theorem Sound.selectPage (hS : Sound s L T) (hm : L m = p :: rest) :
    selectPage s m = .ok p := by
  have hnext : (s.links (.handle m)).next = some (.frame p) := by
    rw [(hS.lists.chain m).next_head, hm]; rfl
  have hfree := (hS.blocks.block p ⟨m, by rw [hm]; simp⟩).free
  rw [CubikOS.selectPage, hnext]
  simp [hfree]

theorem Sound.detached (hS : Sound s L T) (hm : L m = p :: rest) :
    Detached (popState s m p) (Function.update L m rest) m [] rest p := by
  have hc := hS.lists.chain m
  rw [hm, List.map_cons] at hc
  have hnd := hS.lists.nodup m
  rw [hm, List.map_cons, List.nodup_cons] at hnd
  have hL : FreeLists (popState s m p) (Function.update L m rest) := by
    have h1 := hS.lists.unlink (i := m) (x := .frame p) (by rw [hm]; simp)
    rw [hm, List.map_cons, List.erase_cons_head, map_update] at h1
    exact h1
  have hnotMem : p ∉ Listed (Function.update L m rest) := by
    rintro ⟨k, hk⟩
    rcases eq_or_ne k m with rfl | hkm
    · rw [Function.update_self] at hk
      exact hnd.1 (List.mem_map_of_mem hk)
    · rw [Function.update_of_ne hkm] at hk
      exact hkm (hS.lists.unique k m (.frame p) (List.mem_map_of_mem hk) (by rw [hm]; simp))
  -- the links of the node itself are the ones it had as the first of the list
  have hpp : (s.links (.frame p)).next ≠ some (.frame p) := by
    rw [hc.2.2.next_head]
    exact fun h ↦ hnd.1 (List.mem_of_head? h)
  refine ⟨hL, by simp, hnotMem, ?_, ?_⟩
  · rw [popState, PmState.setLinks_links, linkedListRemove_eq, Heap.unlink_prev, if_neg hpp]
    exact hc.2.1
  · rw [popState, PmState.setLinks_links, linkedListRemove_eq, Heap.unlink_next, hc.2.1,
      if_neg (by simp)]
    exact hc.2.2.next_head

theorem Sound.listed_pop (hm : L m = p :: rest) :
    insert p (Listed (Function.update L m rest)) ⊆ Listed L := by
  rintro q (rfl | ⟨k, hk⟩)
  · exact ⟨m, by rw [hm]; simp⟩
  · exact ⟨k, mem_of_mem_update (show L m = [p] ++ rest from hm) hk⟩

theorem Sound.blocks_pop (hS : Sound s L T) (hm : L m = p :: rest) :
    Blocks (popState s m p) (insert p (Listed (Function.update L m rest))) T := by
  refine (hS.blocks.mono (Sound.listed_pop hm)).congr (fun _ _ _ _ ↦ rfl) (fun _ _ ↦ rfl) ?_ ?_
  · intro q hq
    exact (hS.blocks.block q (Sound.listed_pop hm hq)).free
  · intro q _ i _ _ hx
    exact (hS.lists.unlink_frame ⟨m, by simp [hm]⟩ (hS.lists.notMem_of_null hx)).trans hx

end Pop

/-- What a call that returns the block in slot `p`, the first one of list `m`, does: with `n` the
number of times it was cut, the block keeps its address, loses `n` orders and is no longer free,
and one upper half of each order it lost is made. -/
structure Took (s s' : PmState) (L L' : ListIndex → List ℕ) (m : ListIndex) (rest : List ℕ)
    (p n : ℕ) : Prop where
  /-- The block was the first one of its list. -/
  pop : L m = p :: rest
  /-- The other lists gain the upper halves. -/
  list_of_ne : ∀ k, k ≠ m → L' k =
    if (s.page p).order - n ≤ k ∧ k < (s.page p).order then (p + 2 ^ (k : ℕ)) :: L k else L k
  /-- The list it came from loses it. -/
  list_self : ¬ ((s.page p).order - n ≤ m ∧ m < (s.page p).order) → L' m = rest
  /-- Nothing else gets onto any list. -/
  mem : ∀ k, ∀ q ∈ L' k, q ∈ L k ∧ q ≠ p ∨
    q = p + 2 ^ (k : ℕ) ∧ (s.page p).order - n ≤ k ∧ k < (s.page p).order
  /-- The other counters count the upper halves. -/
  count_of_ne : ∀ k, k ≠ m → s'.count k =
    if (s.page p).order - n ≤ k ∧ k < (s.page p).order then (s.count k + 1) % 2 ^ 32
    else s.count k
  /-- The counter of the list it came from counts it off. -/
  count_self : ¬ ((s.page p).order - n ≤ m ∧ m < (s.page p).order) →
    s'.count m = s.count m - 1
  /-- The block has lost `n` orders and is not free any more. -/
  page_self : s'.page p = { s.page p with order := (s.page p).order - n, free := false }
  /-- The upper halves are free blocks of their orders, at their addresses. -/
  page_new : ∀ j, (s.page p).order - n ≤ j → j < (s.page p).order →
    s'.page (p + 2 ^ j) = ⟨j, true, (s.page p).addr + archPageSize * 2 ^ j⟩
  /-- No other descriptor is touched. -/
  page_of_ne : ∀ x, x ≠ p → (∀ j, (s.page p).order - n ≤ j → j < (s.page p).order →
    x ≠ p + 2 ^ j) → s'.page x = s.page x
  /-- Nothing is mapped or unmapped. -/
  present : s'.present = s.present

section Took

variable {s s' : PmState} {L L' : ListIndex → List ℕ} {T : Set ℕ} {m : ListIndex} {p n : ℕ}
  {rest : List ℕ}

theorem Took.listed (hT : Took s s' L L' m rest p n) : p ∈ Listed L := ⟨m, by simp [hT.pop]⟩

theorem Took.block_self (hT : Took s s' L L' m rest p n) :
    s'.block p = ⟨(s.page p).addr, (s.page p).order - n⟩ := by
  rw [PmState.block, hT.page_self]

theorem Took.block_new (hT : Took s s' L L' m rest p n) {j : ℕ}
    (h1 : (s.page p).order - n ≤ j) (h2 : j < (s.page p).order) :
    s'.block (p + 2 ^ j) = upperHalf archPageSize (s.page p).addr j := by
  rw [PmState.block, hT.page_new j h1 h2]; rfl

/-- Blocks that were on a list and are not the one returned are untouched. -/
theorem Took.page_other (hT : Took s s' L L' m rest p n) (hS : Sound s L T) {q : ℕ}
    (hq : q ∈ Listed L) (hqp : q ≠ p) : s'.page q = s.page q := by
  refine hT.page_of_ne q hqp fun j _ hj ↦ ?_
  have hlt : 2 ^ j < 2 ^ (s.page p).order := Nat.pow_lt_pow_right (by omega) hj
  exact (hS.blocks.head_ne hT.listed hq (Nat.two_pow_pos j) hlt).symm

/-- The returned block is a part of the block it was cut from. -/
theorem Took.span_self (hT : Took s s' L L' m rest p n) :
    (s'.block p).span archPageSize ⊆ (s.block p).span archPageSize := by
  rw [hT.block_self]
  exact span_mono (Nat.sub_le _ _)

/-- Every block on a list is a part of a block that was on a list. -/
theorem Took.span_listed (hT : Took s s' L L' m rest p n) (hS : Sound s L T) {q : ℕ}
    (hq : q ∈ Listed L') : ∃ r ∈ Listed L,
      (s'.block q).span archPageSize ⊆ (s.block r).span archPageSize := by
  obtain ⟨k, hk⟩ := hq
  rcases hT.mem k q hk with ⟨hmem, hqp⟩ | ⟨rfl, h1, h2⟩
  · refine ⟨q, ⟨k, hmem⟩, ?_⟩
    rw [PmState.block, hT.page_other hS ⟨k, hmem⟩ hqp]
    exact Set.Subset.rfl
  · refine ⟨p, hT.listed, ?_⟩
    rw [hT.block_new h1 h2]
    exact upperHalf_span_subset h2

end Took

/-- **A call that finds its list non-empty.**  The state stays sound, the returned block now being
among what must not be handed out. -/
theorem pmAllocatePages_eq {s : PmState} {L : ListIndex → List ℕ} {T : Set ℕ} {m : ListIndex}
    {p order : ℕ} {rest : List ℕ} (hS : Sound s L T) (horder : order ≤ pageMaxOrder)
    (hsel : selectList s (pageMaxOrder + 1) order = some m) (hm : L m = p :: rest) :
    ∃ s' L', pmAllocatePages s order = .ok (some p, s') ∧
      Took s s' L L' m rest p (m - order) ∧
      Sound s' L' (T ∪ (s'.block p).span archPageSize) := by
  obtain ⟨ho1, ho2⟩ := hS.order m p (by simp [hm])
  obtain ⟨s', L', front', hrun, hD, hB, hE⟩ := expandLoop_spec (hS.detached hm)
    (hS.blocks_pop hm) (show ((popState s m p).page p).order = (s.page p).order from rfl)
    (show m - order ≤ (s.page p).order by omega) ho2
  have hT : Took s (s'.setPage p { s'.page p with free := false }) L L' m rest p (m - order) := by
    have hnew : ∀ j, p + 2 ^ j ≠ p := by intro j; have := Nat.two_pow_pos j; omega
    refine ⟨hm, fun k hk ↦ ?_, fun h ↦ ?_, fun k q hq ↦ ?_, fun k hk ↦ ?_, fun h ↦ ?_, ?_,
      fun j h1 h2 ↦ ?_, fun x hx hx' ↦ ?_, hE.present⟩
    · rw [hE.list_of_ne k hk, Function.update_of_ne hk]
    · exact hE.list_self h (Function.update_self _ _ _)
    · rcases hE.mem k q hq with hq | hq
      · refine Or.inl ⟨mem_of_mem_update (show L m = [p] ++ rest from hm) hq, ?_⟩
        rintro rfl
        exact (hS.detached hm).notMem ⟨k, hq⟩
      · exact Or.inr hq
    · rw [PmState.setPage_count, hE.count k]
      simp only [popState, PmState.setLinks_count, PmState.setCount_count,
        Function.update_of_ne hk]
    · rw [PmState.setPage_count, hE.count m, if_neg h]
      simp [popState]
    · rw [PmState.setPage_page, Function.update_self, hE.page_self]
      rfl
    · rw [PmState.setPage_page, Function.update_of_ne (hnew j), hE.page_new j h1 h2]
      rfl
    · rw [PmState.setPage_page, Function.update_of_ne hx, hE.page_of_ne x hx hx']
      rfl
  refine ⟨s'.setPage p { s'.page p with free := false }, L', ?_, hT, ?_⟩
  · rw [pmAllocatePages, if_neg (by omega), hsel]
    simp only [hS.selectPage hm]
    rw [popState, PmState.setCount, PmState.setLinks] at hrun
    simp only [PmState.setCount, PmState.setLinks]
    rw [hrun]
  · have hne : ∀ q ∈ Listed L', q ≠ p := fun q hq hqp ↦ hD.notMem (hqp ▸ hq)
    have hBlocks : Blocks (s'.setPage p { s'.page p with free := false }) (Listed L') T := by
      refine (hB.mono (Set.subset_insert _ _)).congr (fun _ _ _ _ ↦ ?_) (fun q hq ↦ ?_)
        (fun q hq ↦ ?_) (fun _ _ _ _ _ h ↦ h)
      · rw [PmState.setPage_page, Function.update_apply]
        split
        · rename_i hx; rw [hx]
        · rfl
      · rw [PmState.setPage_page, Function.update_of_ne (hne q hq)]
      · rw [PmState.setPage_page, Function.update_of_ne (hne q hq)]
        exact (hB.block q (Set.mem_insert_of_mem _ hq)).free
    have hblock : ∀ q, (s'.setPage p { s'.page p with free := false }).block q = s'.block q := by
      intro q
      rw [PmState.block, PmState.block, PmState.setPage_page, Function.update_apply]
      split
      · rename_i hx; rw [hx]
      · rfl
    refine ⟨hD.lists, ⟨hBlocks.block, hBlocks.apart, fun q hq ↦ ?_⟩, fun k q hq ↦ ?_⟩
    · rw [Set.disjoint_union_right]
      refine ⟨hBlocks.taken q hq, ?_⟩
      rw [hblock, hblock]
      exact hB.apart q (Set.mem_insert_of_mem _ hq) p (Set.mem_insert _ _) (hne q hq)
    · rcases hT.mem k q hq with ⟨hq', hqp⟩ | ⟨rfl, h1, h2⟩
      · rw [hT.page_other hS ⟨k, hq'⟩ hqp]
        exact hS.order k q hq'
      · rw [hT.page_new _ h1 h2]
        exact ⟨le_refl _, by simp only; omega⟩

/-- A call that settles on an empty list, its counter being wrong, dereferences null. -/
theorem pmAllocatePages_empty {s : PmState} {L : ListIndex → List ℕ} {T : Set ℕ} {m : ListIndex}
    {order : ℕ} (hS : Sound s L T) (horder : order ≤ pageMaxOrder)
    (hsel : selectList s (pageMaxOrder + 1) order = some m) (hm : L m = []) :
    pmAllocatePages s order = .error .nullDereference := by
  have hnext : (s.links (.handle m)).next = none := by
    rw [(hS.lists.chain m).next_head, hm]; rfl
  rw [pmAllocatePages, if_neg (by omega), hsel]
  simp only [selectPage, hnext]

/-- **What a call that returns a block has done**, on a sound state. -/
theorem pmAllocatePages_some {s s' : PmState} {L : ListIndex → List ℕ} {T : Set ℕ}
    {p order : ℕ} (hS : Sound s L T) (hrun : pmAllocatePages s order = .ok (some p, s')) :
    ∃ (m : ListIndex) (rest : List ℕ) (L' : ListIndex → List ℕ), order ≤ m ∧ s.count m ≠ 0 ∧
      (∀ j : ListIndex, order ≤ j → j < m → s.count j = 0) ∧
      Took s s' L L' m rest p (m - order) ∧
      Sound s' L' (T ∪ (s'.block p).span archPageSize) := by
  have horder : order ≤ pageMaxOrder := by
    by_contra hcon
    rw [pmAllocatePages, if_pos (by omega)] at hrun
    simp at hrun
  rcases hsel : selectList s (pageMaxOrder + 1) order with _ | m
  · rw [pmAllocatePages, if_neg (by omega), hsel] at hrun
    simp at hrun
  obtain ⟨h1, h2, h3⟩ := selectList_eq_some hsel
  rcases hm : L m with _ | ⟨q, rest⟩
  · rw [pmAllocatePages_empty hS horder hsel hm] at hrun
    simp at hrun
  obtain ⟨s'', L', hrun', hT, hS'⟩ := pmAllocatePages_eq hS horder hsel hm
  rw [hrun, Except.ok.injEq, Prod.mk.injEq, Option.some.injEq] at hrun'
  obtain ⟨rfl, rfl⟩ := hrun'
  exact ⟨m, rest, L', h1, h2, h3, hT, hS'⟩

/-- A call that returns `NULL` changes nothing. -/
theorem pmAllocatePages_none {s s' : PmState} {order : ℕ}
    (hrun : pmAllocatePages s order = .ok (none, s')) : s' = s := by
  rw [pmAllocatePages] at hrun
  split at hrun
  · simpa using hrun.symm
  split at hrun
  · simpa using hrun.symm
  split at hrun
  · simp at hrun
  dsimp only at hrun
  split at hrun <;> simp at hrun

/-! ## Well-formed states -/

/-- The addresses of a set of blocks. -/
def Spans (A : Set Block) : Set ℕ := {x | ∃ b ∈ A, x ∈ b.span archPageSize}

/-- The lists are proper doubly linked lists, as long as their counters say, of free, aligned
blocks of exactly their order; the blocks `A` are the allocated ones, and no two blocks, listed or
allocated, overlap. -/
structure WellFormed (s : PmState) (L : ListIndex → List ℕ) (A : Set Block) : Prop where
  /-- The links spell out the lists. -/
  lists : FreeLists s L
  /-- Every counter is the length of its list. -/
  count : ∀ k, s.count k = (L k).length
  /-- Every list has blocks of its own order. -/
  order : ∀ k, ∀ p ∈ L k, (s.page p).order = k
  /-- What is listed is free, and overlaps nothing. -/
  blocks : Blocks s (Listed L) (Spans A)
  /-- Nor do the allocated blocks overlap. -/
  allocated : A.Pairwise fun b c ↦ Disjoint (b.span archPageSize) (c.span archPageSize)

theorem WellFormed.sound {s : PmState} {L : ListIndex → List ℕ} {A : Set Block}
    (hwf : WellFormed s L A) : Sound s L (Spans A) :=
  ⟨hwf.lists, hwf.blocks, fun k p hp ↦ by rw [hwf.order k p hp]; omega⟩

theorem spans_insert (A : Set Block) (b : Block) :
    Spans (insert b A) = Spans A ∪ b.span archPageSize := by
  ext x
  constructor
  · rintro ⟨c, rfl | hc, hx⟩
    · exact Or.inr hx
    · exact Or.inl ⟨c, hc, hx⟩
  · rintro (⟨c, hc, hx⟩ | hx)
    · exact ⟨c, Set.mem_insert_of_mem _ hc, hx⟩
    · exact ⟨b, Set.mem_insert _ _, hx⟩

/-- An allocation keeps a state well-formed, the returned block joining the allocated ones. -/
theorem WellFormed.took {s s' : PmState} {L L' : ListIndex → List ℕ} {A : Set Block}
    {m : ListIndex} {p order : ℕ} {rest : List ℕ} (hwf : WellFormed s L A) (hle : order ≤ m)
    (hfirst : ∀ j : ListIndex, order ≤ j → j < m → s.count j = 0)
    (hT : Took s s' L L' m rest p (m - order))
    (hS : Sound s' L' (Spans A ∪ (s'.block p).span archPageSize)) :
    WellFormed s' L' (insert (s'.block p) A) := by
  have ho : (s.page p).order = m := hwf.order m p (by simp [hT.pop])
  have hlow : (s.page p).order - (m - order) = order := by omega
  have hself : ¬ ((s.page p).order - (m - order) ≤ m ∧ m < (s.page p).order) := by omega
  refine ⟨hS.lists, fun k ↦ ?_, fun k q hq ↦ ?_, ?_, ?_⟩
  · rcases eq_or_ne k m with rfl | hk
    · rw [hT.count_self hself, hT.list_self hself, hwf.count, hT.pop]
      simp
    · rw [hT.count_of_ne k hk, hT.list_of_ne k hk, hlow, ho]
      split
      · rename_i hc
        have h0 := hfirst k hc.1 hc.2
        rw [h0, List.length_cons, ← hwf.count, h0]; rfl
      · exact hwf.count k
  · rcases hT.mem k q hq with ⟨hq', hqp⟩ | ⟨rfl, h1, h2⟩
    · rw [hT.page_other hwf.sound ⟨k, hq'⟩ hqp]
      exact hwf.order k q hq'
    · rw [hT.page_new _ h1 h2]
  · rw [spans_insert]; exact hS.blocks
  · -- the returned block is a part of a listed one, and those overlap no allocated block
    have hd : Disjoint ((s'.block p).span archPageSize) (Spans A) :=
      (hwf.blocks.taken p hT.listed).mono_left hT.span_self
    have hd' : ∀ c ∈ A, Disjoint ((s'.block p).span archPageSize) (c.span archPageSize) :=
      fun c hc ↦ hd.mono_right (show c.span archPageSize ⊆ Spans A from fun _ hx ↦ ⟨c, hc, hx⟩)
    exact Set.Pairwise.insert hwf.allocated fun c hc _ ↦ ⟨hd' c hc, (hd' c hc).symm⟩

/-- **One allocation step.**  On a well-formed state, for an order at which or above which some
list is non-empty, the call takes the first block of the smallest such list `k` and returns its
low end at exactly the order asked for.  Lists `order` to `k - 1` gain one block each, the upper
halves cut off on the way; list `k` loses its first block; every other list and every other listed
block stays as it was; the new state is well-formed; and the returned block and the upper halves
tile the block they were cut from. -/
theorem pmAllocatePages_buddy_step {s : PmState} {L : ListIndex → List ℕ} {A : Set Block}
    (hwf : WellFormed s L A) {order : ℕ} (horder : order ≤ pageMaxOrder)
    (hne : ∃ k : ListIndex, order ≤ k ∧ L k ≠ []) :
    ∃ (k : ListIndex) (p : ℕ) (rest : List ℕ) (s' : PmState) (L' : ListIndex → List ℕ),
      order ≤ k ∧ (∀ j : ListIndex, order ≤ j → j < k → L j = []) ∧ L k = p :: rest ∧
      pmAllocatePages s order = .ok (some p, s') ∧
      s'.block p = ⟨(s.page p).addr, order⟩ ∧
      WellFormed s' L' (insert (s'.block p) A) ∧
      (∀ j : ListIndex, order ≤ j → j < k →
        ∃ q, L' j = q :: L j ∧ s'.block q = upperHalf archPageSize (s.page p).addr j) ∧
      L' k = rest ∧
      (∀ j : ListIndex, j < order ∨ k < j → L' j = L j) ∧
      (∀ q ∈ Listed L, q ≠ p → s'.page q = s.page q) ∧
      Tiles archPageSize
        (s'.block p :: upperHalves archPageSize (s.page p).addr order (k - order)) (s.block p) := by
  have hempty : ∀ j, s.count j = 0 → L j = [] := by
    intro j hj
    rw [hwf.count] at hj
    exact List.eq_nil_of_length_eq_zero hj
  rcases hsel : selectList s (pageMaxOrder + 1) order with _ | k
  · obtain ⟨k, hk, hLk⟩ := hne
    exact absurd (hempty k (selectList_eq_none hsel (by omega) k hk)) hLk
  obtain ⟨hle, hcount, hfirst⟩ := selectList_eq_some hsel
  rcases hk : L k with _ | ⟨p, rest⟩
  · exact absurd (by rw [hwf.count, hk]; rfl) hcount
  obtain ⟨s', L', hrun, hT, hS'⟩ := pmAllocatePages_eq hwf.sound horder hsel hk
  have ho : (s.page p).order = k := hwf.order k p (by simp [hk])
  have hlow : (s.page p).order - (k - order) = order := by omega
  have hself : ¬ ((s.page p).order - (k - order) ≤ k ∧ k < (s.page p).order) := by omega
  refine ⟨k, p, rest, s', L', hle, fun j h1 h2 ↦ hempty j (hfirst j h1 h2), hk, hrun,
    by rw [hT.block_self, hlow], hwf.took hle hfirst hT hS', fun j h1 h2 ↦ ?_,
    hT.list_self hself, fun j hj ↦ ?_, fun q hq hqp ↦ hT.page_other hwf.sound hq hqp, ?_⟩
  · have h2' := Fin.lt_def.mp h2
    refine ⟨p + 2 ^ (j : ℕ), ?_, hT.block_new (by omega) (by omega)⟩
    rw [hT.list_of_ne j (Fin.ne_of_lt h2), if_pos (by omega)]
  · rw [Fin.lt_def] at hj
    have hjk : j ≠ k := by rintro rfl; omega
    rw [hT.list_of_ne j hjk, if_neg (by omega)]
  · have htiles := tiles_upperHalves (u := archPageSize) (s.page p).addr order (k - order)
    rw [hT.block_self, hlow, PmState.block, ho]
    rwa [show order + (k - order) = (k : ℕ) by omega] at htiles

/-! ### States with one block -/

/-- The only block on a list is the one in slot `p`, on list `k`. -/
def singleState (k : ListIndex) (p : ℕ) (page : ℕ → Pageframe) : PmState where
  links n := if n = .handle k then ⟨none, some (.frame p)⟩
    else if n = .frame p then ⟨some (.handle k), none⟩ else Link.null
  count j := if j = k then 1 else 0
  page := page
  present _ := true

/-- Its lists. -/
def singleLists (k : ListIndex) (p : ℕ) : ListIndex → List ℕ := fun j ↦ if j = k then [p] else []

/-- The descriptors of a block of order `k` at address `a`, from slot `p` on. -/
def blockPages (k p a : ℕ) : ℕ → Pageframe :=
  fun x ↦ ⟨if x = p then k else 0, true, a + archPageSize * (x - p)⟩

theorem listed_singleLists (k : ListIndex) (p : ℕ) : Listed (singleLists k p) = {p} := by
  ext q
  constructor
  · rintro ⟨j, hj⟩
    rw [singleLists] at hj
    split at hj
    · simpa using hj
    · simp at hj
  · rintro rfl
    exact ⟨k, by simp [singleLists]⟩

theorem freeLists_singleState (k : ListIndex) (p : ℕ) (page : ℕ → Pageframe) :
    FreeLists (singleState k p page) (singleLists k p) where
  chain := by
    intro j
    by_cases hj : j = k
    · subst hj; simp [singleLists, Chain, singleState]
    · simp [singleLists, Chain, singleState, hj, Link.null]
  nodup := by intro j; by_cases hj : j = k <;> simp [singleLists, hj]
  unique := by
    intro i j x hi hj
    by_cases hik : i = k <;> by_cases hjk : j = k
    · rw [hik, hjk]
    all_goals simp_all [singleLists]
  head_notMem := by intro i j; by_cases hj : j = k <;> simp [singleLists, hj]
  head_inj := by intro i j hij; simpa using hij

theorem wellFormed_singleState {k : ListIndex} {p : ℕ} {page : ℕ → Pageframe}
    (hb : FreeBlock (singleState k p page) p) (ho : (page p).order = k) :
    WellFormed (singleState k p page) (singleLists k p) ∅ where
  lists := freeLists_singleState k p page
  count j := by by_cases hj : j = k <;> simp [singleState, singleLists, hj]
  order j q hq := by
    by_cases hj : j = k
    · simp only [singleLists, hj, if_pos, List.mem_singleton] at hq
      rw [hj, hq]; exact ho
    · simp [singleLists, hj] at hq
  blocks := by
    rw [listed_singleLists]
    refine ⟨?_, ?_, ?_⟩
    · rintro q rfl; exact hb
    · rintro q rfl r rfl hqr; exact absurd rfl hqr
    · rintro q rfl
      have hnone : Spans ∅ = ∅ := by ext x; simp [Spans]
      rw [hnone]; exact Set.disjoint_empty _
  allocated := Set.pairwise_empty _

theorem freeBlock_blockPages {k : ListIndex} {p a : ℕ}
    (hal : (Block.mk a k).Aligned archPageSize)
    (hbound : a + archPageSize * 2 ^ (k : ℕ) ≤ 2 ^ 64) :
    FreeBlock (singleState k p (blockPages k p a)) p := by
  refine ⟨rfl, ?_, ?_, ?_, ?_⟩
  · simpa [PmState.block, singleState, blockPages] using hal
  · simpa [singleState, blockPages] using hbound
  · intro i _; simp [singleState, blockPages]
  · intro i h0 _
    simp [singleState, Nat.ne_of_gt h0]

/-- One free block, the 4 MiB at 4 MiB. -/
def oneBlock : PmState :=
  singleState 10 (pageSlot pageMaxSize) (blockPages 10 (pageSlot pageMaxSize) pageMaxSize)

theorem wellFormed_oneBlock : WellFormed oneBlock (singleLists 10 (pageSlot pageMaxSize)) ∅ :=
  wellFormed_singleState (freeBlock_blockPages (by decide) (by decide))
    (by simp only [blockPages, if_pos]; rfl)

/-- The 4 MiB at 4 MiB as one block: asking for two frames returns the lowest two. -/
theorem pmAllocatePages_buddy_step_single :
    ∃ s', pmAllocatePages oneBlock 1 = .ok (some (pageSlot pageMaxSize), s') ∧
      s'.block (pageSlot pageMaxSize) = ⟨pageMaxSize, 1⟩ := by
  obtain ⟨k, p, rest, s', L', -, -, hk, hrun, hblock, -⟩ :=
    pmAllocatePages_buddy_step wellFormed_oneBlock (show 1 ≤ pageMaxOrder by decide)
      ⟨10, by decide, by simp [singleLists]⟩
  obtain rfl : p = pageSlot pageMaxSize := by
    have hp : p ∈ Listed (singleLists 10 (pageSlot pageMaxSize)) := ⟨k, by simp [hk]⟩
    simpa [listed_singleLists] using hp
  refine ⟨s', hrun, hblock.trans ?_⟩
  simp [oneBlock, singleState, blockPages]

end CubikOS

import CubikOS.Mm.Allocate

/-!
# Freeing a block

`PM_FreePages` and the counters.

A list is searched for a block only if its counter is not zero, so the memory the allocator can
still hand out is what the counters say: `total`.  An allocation takes exactly the returned block
off that sum.  `PM_CombinePage` moves blocks from list to list and leaves every counter alone, so a
free puts nothing back, whichever way the block is merged with its neighbours.
-/

set_option autoImplicit false

namespace CubikOS

open Intrusive Buddy

/-! ## The sum of the counters -/

/-- The number of frames the counters speak of. -/
def PmState.total (s : PmState) : ℕ := ∑ k : ListIndex, s.count k * 2 ^ (k : ℕ)

/-- What the split loop does on any state: it counts one upper half of each order it goes through,
and takes the block down in order. -/
theorem expandLoop_any {n : ℕ} {s s' : PmState} {p p' o : ℕ} (ho : (s.page p).order = o)
    (hrun : expandLoop n s p = .ok (p', s')) : p' = p ∧
      s'.page p = { s.page p with order := o - n } ∧ ∀ k : ListIndex, s'.count k =
        if o - n ≤ k ∧ k < o then (s.count k + 1) % 2 ^ 32 else s.count k := by
  induction n generalizing s o with
  | zero =>
    rw [expandLoop, Except.ok.injEq, Prod.mk.injEq] at hrun
    obtain ⟨rfl, rfl⟩ := hrun
    refine ⟨rfl, ?_, fun k ↦ ?_⟩
    · rw [← ho]; rfl
    · rw [if_neg (by omega)]
  | succ n ih =>
    rw [expandLoop] at hrun
    rcases o with _ | o
    · simp [pmExpandPage, ho] at hrun
    by_cases h : o < pageMaxOrder + 1
    · rw [pmExpandPage_succ ho h] at hrun
      have hself : (expandState s p o h).page p = { s.page p with order := o } :=
        expandState_page_self
      obtain ⟨hp, hpage, hcount⟩ := ih (by rw [hself]) hrun
      refine ⟨hp, ?_, fun k ↦ ?_⟩
      · rw [hpage, hself, Nat.add_sub_add_right]
      · rw [hcount k, expandState_count, Nat.add_sub_add_right]
        exact ite_round (fun c ↦ (c + 1) % 2 ^ 32) (s.count k) k o n
    · have herror : pmExpandPage s p = .error .outOfBounds := by
        simp only [pmExpandPage, ho, PmState.setLinks_page, Nat.add_sub_cancel, dif_neg h]
        rfl
      rw [herror] at hrun
      simp at hrun

/-- What a call that returns a block has done, on any state in which the block that heads a list
has the order of the list: the block has the order asked for, and the counters are those of a list
less one block and one upper half of each order below. -/
theorem pmAllocatePages_any {s s' : PmState} {order p : ℕ}
    (hrun : pmAllocatePages s order = .ok (some p, s'))
    (horder : ∀ (k : ListIndex) (q : ℕ), selectPage s k = .ok q → (s.page q).order = k) :
    s'.block p = ⟨(s.page p).addr, order⟩ ∧ ∃ m : ListIndex, order ≤ m ∧ s.count m ≠ 0 ∧
      (∀ j : ListIndex, order ≤ j → j < m → s.count j = 0) ∧
      ∀ k : ListIndex, s'.count k =
        if order ≤ k ∧ k < m then 1 else if k = m then s.count m - 1 else s.count k := by
  rw [pmAllocatePages] at hrun
  split at hrun
  · simp at hrun
  split at hrun
  · simp at hrun
  rename_i m hsel
  obtain ⟨hle, hcount, hfirst⟩ := selectList_eq_some hsel
  split at hrun
  · simp at hrun
  rename_i q hq
  dsimp only at hrun
  split at hrun
  · simp at hrun
  rename_i p' s₁ hloop
  obtain ⟨rfl, hpage, hloop⟩ := expandLoop_any
    (show ((popState s m q).page q).order = m from horder m q hq) hloop
  simp only [Except.ok.injEq, Prod.mk.injEq, Option.some.injEq] at hrun
  obtain ⟨rfl, rfl⟩ := hrun
  have hlow : (m : ℕ) - (m - order) = order := by omega
  refine ⟨?_, m, hle, hcount, hfirst, fun k ↦ ?_⟩
  · rw [PmState.block, PmState.setPage_page, Function.update_self, hpage, hlow]; rfl
  · rw [PmState.setPage_count, hloop k, popState, PmState.setLinks_count,
      PmState.setCount_count, Function.update_apply, hlow]
    simp only [Fin.lt_def]
    split
    · rename_i hk
      rw [if_neg (by rintro rfl; omega), hfirst k hk.1 hk.2]; rfl
    · rfl

/-- The halves cut off a block on the way from order `m` down to `order`. -/
theorem sum_halves : ∀ m order : ListIndex, order ≤ m →
    (∑ k : ListIndex, if order ≤ k ∧ k < m then 2 ^ (k : ℕ) else 0) + 2 ^ (order : ℕ) =
      2 ^ (m : ℕ) := by
  decide

/-- **An allocation takes the returned block off the sum.** -/
theorem pmAllocatePages_total {s s' : PmState} {order p : ℕ}
    (hrun : pmAllocatePages s order = .ok (some p, s'))
    (horder : ∀ (k : ListIndex) (q : ℕ), selectPage s k = .ok q → (s.page q).order = k) :
    s'.total + 2 ^ order = s.total := by
  obtain ⟨-, m, hle, hm, hfirst, hcount⟩ := pmAllocatePages_any hrun horder
  -- list by list: the one taken from loses its first block, those below gain a half each
  have hterm : ∀ k : ListIndex, s'.count k * 2 ^ (k : ℕ) + (if k = m then 2 ^ (k : ℕ) else 0) =
      s.count k * 2 ^ (k : ℕ) + if order ≤ k ∧ k < m then 2 ^ (k : ℕ) else 0 := by
    intro k
    rw [hcount k]
    rcases eq_or_ne k m with rfl | hk
    · rw [if_neg (by simp), if_pos rfl, if_pos rfl, if_neg (by simp), ← Nat.succ_mul,
        Nat.succ_eq_add_one, Nat.sub_add_cancel (by omega)]
      rfl
    · rw [if_neg hk, if_neg hk]
      split
      · rename_i hlow
        rw [hfirst k hlow.1 hlow.2, Nat.zero_mul, Nat.one_mul, Nat.add_comm]
      · rfl
  have hsum := Finset.sum_congr (rfl : (Finset.univ : Finset ListIndex) = _) fun k _ ↦ hterm k
  rw [Finset.sum_add_distrib, Finset.sum_add_distrib, Finset.sum_ite_eq' Finset.univ m] at hsum
  have hhalves := sum_halves m ⟨order, by omega⟩ hle
  simp only [Fin.le_def, Finset.mem_univ, if_true] at hsum hhalves
  rw [PmState.total, PmState.total]
  omega

/-! ## Freeing leaves the counters alone -/

theorem pmCombinePage_count {partner : ℕ → ℕ} {s s' : PmState} {p : ℕ} {r : Option ℕ}
    (hrun : pmCombinePage partner s p = .ok (r, s')) : s'.count = s.count := by
  rw [pmCombinePage] at hrun
  dsimp only at hrun
  split_ifs at hrun
  all_goals
    rw [Except.ok.injEq, Prod.mk.injEq] at hrun
    rw [← hrun.2]
    rfl

theorem combineLoop_count {partner : ℕ → ℕ} {fuel : ℕ} {s s' : PmState} {p : Option ℕ}
    (hrun : combineLoop partner fuel s p = .ok s') : s'.count = s.count := by
  induction fuel generalizing s p with
  | zero => simp [combineLoop] at hrun
  | succ fuel ih =>
    rcases p with _ | p
    · rw [combineLoop, Except.ok.injEq] at hrun
      rw [hrun]
    · rw [combineLoop] at hrun
      split at hrun
      · simp at hrun
      · rename_i hcombine
        rw [ih hrun, pmCombinePage_count hcombine]

theorem pmFreePages_count {partner : ℕ → ℕ} {fuel : ℕ} {s s' : PmState} {pf : Option ℕ}
    (hrun : pmFreePages partner fuel s pf = .ok s') : s'.count = s.count := by
  rcases pf with _ | pf
  · rw [pmFreePages, Except.ok.injEq] at hrun
    rw [hrun]
  · rw [pmFreePages] at hrun
    rw [combineLoop_count hrun, PmState.setPage_count]

/-! ## Allocating and freeing -/

/-- The lists are proper doubly linked lists, as long as their counters say, of free, aligned
blocks of exactly their order, and no two blocks, listed or in `A`, overlap.  This is
`WellFormed` without what it says of the descriptors inside a block. -/
structure ProperLists (s : PmState) (L : ListIndex → List ℕ) (A : Set Block) : Prop where
  /-- The links spell out the lists. -/
  lists : FreeLists s L
  /-- Every counter is the length of its list. -/
  count : ∀ k, s.count k = (L k).length
  /-- Every list has blocks of its own order. -/
  order : ∀ k, ∀ p ∈ L k, (s.page p).order = k
  /-- What is listed is marked free. -/
  free : ∀ p ∈ Listed L, (s.page p).free = true
  /-- What is listed is aligned to its own size. -/
  aligned : ∀ p ∈ Listed L, (s.block p).Aligned archPageSize
  /-- No two listed blocks overlap. -/
  apart : ∀ p ∈ Listed L, ∀ q ∈ Listed L, p ≠ q →
    Disjoint ((s.block p).span archPageSize) ((s.block q).span archPageSize)
  /-- No listed block overlaps an allocated one. -/
  taken : ∀ p ∈ Listed L, Disjoint ((s.block p).span archPageSize) (Spans A)
  /-- Nor do the allocated blocks overlap. -/
  allocated : A.Pairwise fun b c ↦ Disjoint (b.span archPageSize) (c.span archPageSize)

theorem WellFormed.properLists {s : PmState} {L : ListIndex → List ℕ} {A : Set Block}
    (hwf : WellFormed s L A) : ProperLists s L A :=
  ⟨hwf.lists, hwf.count, hwf.order, fun p hp ↦ (hwf.blocks.block p hp).free,
    fun p hp ↦ (hwf.blocks.block p hp).aligned, hwf.blocks.apart, hwf.blocks.taken, hwf.allocated⟩

/-- The block the search settles on is on the list it is looked for on. -/
theorem mem_of_selectPage {s : PmState} {k : ListIndex} {l : List ℕ} {q : ℕ}
    (hc : Chain s.links (.handle k) (l.map .frame)) (hq : selectPage s k = .ok q) : q ∈ l := by
  rw [selectPage, hc.next_head] at hq
  cases l with
  | nil => simp at hq
  | cons x rest =>
    simp only [List.map_cons, List.head?_cons] at hq
    split at hq
    · rw [Except.ok.injEq] at hq
      simp [hq]
    · simp at hq

/-- What is expected of a free, `s` being the state before the block in slot `p` was allocated and
`s'` the one after: the call returns, the counters again add up to what they did, and the next
request for the same order is served. -/
def FreeRestores (s s' : PmState) (order p : ℕ) : Prop :=
  ∃ fuel s'', pmFreePages castPage fuel s' (some p) = .ok s'' ∧ s''.total = s.total ∧
    ∃ q t, pmAllocatePages s'' order = .ok (some q, t)

/-- **A free never restores what the allocation took**: when it returns at all, the counters are
short of exactly the frames of the block. -/
theorem pmFreePages_never_restores {s s' : PmState} {L : ListIndex → List ℕ} {A : Set Block}
    {order p : ℕ} (hwf : ProperLists s L A)
    (hrun : pmAllocatePages s order = .ok (some p, s')) :
    ¬ FreeRestores s s' order p ∧
      ∀ fuel s'', pmFreePages castPage fuel s' (some p) = .ok s'' →
        s''.total + 2 ^ order = s.total := by
  have hlost : ∀ fuel s'', pmFreePages castPage fuel s' (some p) = .ok s'' →
      s''.total + 2 ^ order = s.total := by
    intro fuel s'' hfree
    have htotal : s''.total = s'.total := by
      rw [PmState.total, PmState.total, pmFreePages_count hfree]
    rw [htotal]
    exact pmAllocatePages_total hrun fun k q hq ↦
      hwf.order k q (mem_of_selectPage (hwf.lists.chain k) hq)
  refine ⟨?_, hlost⟩
  rintro ⟨fuel, s'', hfree, htotal, -⟩
  have h1 := hlost fuel s'' hfree
  have h2 := Nat.two_pow_pos order
  omega

/-! ### The frame at 4 MiB, allocated and freed -/

/-- One free frame, the one at 4 MiB, and no other descriptor in use. -/
def oneFrame : PmState :=
  singleState ⟨0, Nat.succ_pos pageMaxOrder⟩ (pageSlot pageMaxSize) fun x ↦
    if x = pageSlot pageMaxSize then ⟨0, true, pageMaxSize⟩ else Pageframe.zero

theorem wellFormed_oneFrame : WellFormed oneFrame (singleLists 0 (pageSlot pageMaxSize)) ∅ := by
  refine wellFormed_singleState ⟨by simp [singleState], ?_, ?_, ?_, ?_⟩ (by simp)
  · rw [PmState.block]; simp only [singleState, if_pos]; decide
  · simp only [singleState, if_pos]; decide
  · intro i hi
    simp only [singleState, if_pos, pow_zero] at hi
    obtain rfl : i = 0 := by omega
    rfl
  · intro i h0 hi
    simp only [singleState, if_pos, pow_zero] at hi
    omega

/-- Handing the frame out leaves no counter above zero, and nothing but its own descriptor
changes. -/
theorem alloc_oneFrame : ∃ s',
    pmAllocatePages oneFrame 0 = .ok (some (pageSlot pageMaxSize), s') ∧
      (∀ k, s'.count k = 0) ∧ s'.page (pageSlot pageMaxSize) = ⟨0, false, pageMaxSize⟩ ∧
      (∀ x, x ≠ pageSlot pageMaxSize → s'.page x = Pageframe.zero) ∧ ∀ x, s'.present x = true := by
  have hself : oneFrame.page (pageSlot pageMaxSize) = ⟨0, true, pageMaxSize⟩ := by
    simp [oneFrame, singleState]
  have hsel : selectList oneFrame (pageMaxOrder + 1) 0 = some 0 := rfl
  obtain ⟨s', L', hrun, hT, -⟩ := pmAllocatePages_eq wellFormed_oneFrame.sound
    (Nat.zero_le pageMaxOrder) hsel (show singleLists 0 (pageSlot pageMaxSize) 0 = [_] from rfl)
  refine ⟨s', hrun, fun k ↦ ?_, ?_, fun x hx ↦ ?_, fun x ↦ ?_⟩
  · rcases eq_or_ne k 0 with rfl | hk
    · rw [hT.count_self (by rw [hself]; simp)]; rfl
    · rw [hT.count_of_ne k hk, hself, if_neg (by simp)]
      exact if_neg hk
  · rw [hT.page_self, hself]; rfl
  · rw [hT.page_of_ne x hx (by rw [hself]; intro j _ hj; exact absurd hj (Nat.not_lt_zero j))]
    exact if_neg hx
  · rw [hT.present]; rfl

theorem pmFreePages_never_restores_oneFrame : ∃ s',
    pmAllocatePages oneFrame 0 = .ok (some (pageSlot pageMaxSize), s') ∧
      ¬ FreeRestores oneFrame s' 0 (pageSlot pageMaxSize) := by
  obtain ⟨s', hrun, -⟩ := alloc_oneFrame
  exact ⟨s', hrun, (pmFreePages_never_restores wellFormed_oneFrame.properLists hrun).1⟩

/-- **The frame is lost**: it is allocated, the call that frees it returns, and there is nothing
left to allocate. -/
theorem pmFreePages_loses_frame :
    ProperLists oneFrame (singleLists 0 (pageSlot pageMaxSize)) ∅ ∧
    ∃ s' s'', pmAllocatePages oneFrame 0 = .ok (some (pageSlot pageMaxSize), s') ∧
      pmFreePages castPage 2 s' (some (pageSlot pageMaxSize)) = .ok s'' ∧
      oneFrame.total = 1 ∧ s''.total = 0 ∧ pmAllocatePages s'' 0 = .ok (none, s'') := by
  obtain ⟨s', hrun, hcount, hself, hother, hpresent⟩ := alloc_oneFrame
  -- the neighbour's address, taken for a pointer, hits a descriptor that is not free
  have hfree : ∃ s'', pmFreePages castPage 2 s' (some (pageSlot pageMaxSize)) = .ok s'' := by
    have hne : castPage ((pageMaxSize + 2 ^ 0 * archPageSize) % 2 ^ 64) ≠ pageSlot pageMaxSize := by
      decide
    have hal : pageMaxSize % (2 ^ 0 * archPageSize) = 0 := by decide
    rw [pmFreePages, hself, combineLoop, pmCombinePage]
    simp only [PmState.setPage_page, Function.update_self, hal, if_true,
      Function.update_of_ne hne, hother _ hne]
    simp only [PmState.setPage, hpresent, Pageframe.zero]
    exact ⟨_, rfl⟩
  obtain ⟨s'', hfree⟩ := hfree
  have hcount' : ∀ k, s''.count k = 0 := by
    intro k; rw [pmFreePages_count hfree, hcount k]
  refine ⟨wellFormed_oneFrame.properLists, s', s'', hrun, hfree, by decide, ?_, ?_⟩
  · rw [PmState.total]
    simp [hcount']
  · rcases hsel : selectList s'' (pageMaxOrder + 1) 0 with _ | m
    · rw [pmAllocatePages, if_neg (by omega), hsel]
    · exact absurd (hcount' m) (selectList_eq_some hsel).2.1

end CubikOS

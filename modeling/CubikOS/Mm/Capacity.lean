import CubikOS.Lib.Pool
import CubikOS.Mm.Free

/-!
# What the allocator can serve

On a well-formed state the free lists are a pool of blocks, and a call of `PM_AllocatePages` takes
a block out of it (`WellFormed.served`).  From this, for any list of requests made one after the
other:

* `allocateAll_conserves`: none of the calls faults, and no frame is lost or handed out twice: the
  blocks returned and the blocks still free partition what was free before.
* `allocateAll_optimal`: as long as the larger requests come first, the allocator serves all of them
  exactly when blocks of those sizes can be placed in the free memory at all.
-/

set_option autoImplicit false

namespace CubikOS

open Intrusive Buddy

/-- The free blocks. -/
def freePool (s : PmState) (L : ListIndex → List ℕ) : Finset Block :=
  Finset.univ.biUnion fun k ↦ ((L k).map s.block).toFinset

/-- The calls `PM_AllocatePages(order)` for `orders`, one after the other: the blocks returned, a
`NULL` being `none`, and the state after the last. -/
def allocateAll : List ℕ → PmState → Except Fault (List (Option Block) × PmState)
  | [], s => .ok ([], s)
  | order :: orders, s =>
    match pmAllocatePages s order with
    | .error f => .error f
    | .ok (p, s) =>
      match allocateAll orders s with
      | .error f => .error f
      | .ok (bs, s') => .ok (p.map s.block :: bs, s')

theorem mem_freePool {s : PmState} {L : ListIndex → List ℕ} {b : Block} :
    b ∈ freePool s L ↔ ∃ q ∈ Listed L, s.block q = b := by
  simp only [freePool, Finset.mem_biUnion, Finset.mem_univ, true_and, List.mem_toFinset,
    List.mem_map, Listed, Set.mem_ofPred_eq]
  exact ⟨fun ⟨k, q, hq, hb⟩ ↦ ⟨q, ⟨k, hq⟩, hb⟩, fun ⟨q, ⟨k, hq⟩, hb⟩ ↦ ⟨k, q, hq, hb⟩⟩

section Step

variable {s s' : PmState} {L L' : ListIndex → List ℕ} {A : Set Block} {m : ListIndex} {p : ℕ}
  {order : ℕ} {rest : List ℕ}

/-- Descriptors on the lists stand for different blocks. -/
theorem WellFormed.block_ne (hwf : WellFormed s L A) {p q : ℕ} (hp : p ∈ Listed L)
    (hq : q ∈ Listed L) (hne : p ≠ q) : s.block p ≠ s.block q := by
  intro heq
  have hx := (s.block p).base_mem_span (u := archPageSize) (by decide)
  exact Set.disjoint_left.mp (hwf.blocks.apart p hp q hq hne) hx (heq ▸ hx)

theorem WellFormed.pool (hwf : WellFormed s L A) : Pool archPageSize (freePool s L) where
  aligned c hc := by
    obtain ⟨q, hq, rfl⟩ := mem_freePool.mp hc
    exact (hwf.blocks.block q hq).aligned
  disjoint c hc d hd hne := by
    obtain ⟨q, hq, rfl⟩ := mem_freePool.mp hc
    obtain ⟨r, hr, rfl⟩ := mem_freePool.mp hd
    exact hwf.blocks.apart q hq r hr fun heq ↦ hne (heq ▸ rfl)

/-- A call that returns a block takes it out of the pool. -/
theorem WellFormed.take (hwf : WellFormed s L A) (hle : order ≤ m)
    (hT : Took s s' L L' m rest p (m - order)) :
    Take archPageSize (freePool s L) order (s'.block p) (freePool s' L') := by
  have ho : (s.page p).order = m := hwf.order m p (by simp [hT.pop])
  have hlow : (s.page p).order - (m - order) = order := by omega
  have hself : ¬ ((s.page p).order - (m - order) ≤ m ∧ m < (s.page p).order) := by omega
  have hm : (s.block p).order = m := ho
  refine ⟨s.block p, mem_freePool.mpr ⟨p, hT.listed, rfl⟩, by omega, ?_, ?_⟩
  · rw [hT.block_self, hlow]; rfl
  ext b
  rw [Finset.mem_union, Finset.mem_erase, List.mem_toFinset, mem_upperHalves, mem_freePool,
    mem_freePool, hm, Nat.add_sub_cancel' hle]
  constructor
  · -- what is on a list now was there before, or is an upper half
    rintro ⟨q, ⟨j, hq⟩, rfl⟩
    rcases hT.mem j q hq with ⟨hold, hqp⟩ | ⟨rfl, h1, h2⟩
    · have hsame : s'.block q = s.block q := by
        rw [PmState.block, hT.page_other hwf.sound ⟨j, hold⟩ hqp]; rfl
      rw [hsame]
      exact Or.inl ⟨hwf.block_ne ⟨j, hold⟩ hT.listed hqp, q, ⟨j, hold⟩, rfl⟩
    · exact Or.inr ⟨j, by omega, by omega, hT.block_new h1 h2⟩
  · rintro (⟨hne, q, ⟨j, hq⟩, rfl⟩ | ⟨j, h1, h2, rfl⟩)
    · have hqp : q ≠ p := fun h ↦ hne (h ▸ rfl)
      refine ⟨q, ⟨j, ?_⟩, ?_⟩
      · rcases eq_or_ne j m with rfl | hj
        · rw [hT.pop] at hq
          rw [hT.list_self hself]
          exact (List.mem_cons.mp hq).resolve_left hqp
        · rw [hT.list_of_ne j hj]
          split
          · exact List.mem_cons_of_mem _ hq
          · exact hq
      · rw [PmState.block, hT.page_other hwf.sound ⟨j, hq⟩ hqp]; rfl
    · refine ⟨p + 2 ^ j, ⟨⟨j, by omega⟩, ?_⟩, hT.block_new (by omega) (by omega)⟩
      have hj : (⟨j, by omega⟩ : ListIndex) ≠ m := fun h ↦ by
        have := congrArg Fin.val h
        simp only at this
        omega
      rw [hT.list_of_ne _ hj, if_pos ⟨by simp only; omega, by simp only; omega⟩]
      exact List.mem_cons_self

/-- **One call on a well-formed state**: it returns `NULL` and changes nothing, no free block being
large enough, or takes a block of the order asked for out of the pool. -/
theorem WellFormed.served (hwf : WellFormed s L A) (order : ℕ) :
    (pmAllocatePages s order = .ok (none, s) ∧ ∀ c ∈ freePool s L, c.order < order) ∨
      ∃ p s' L', pmAllocatePages s order = .ok (some p, s') ∧
        WellFormed s' L' (insert (s'.block p) A) ∧
        Take archPageSize (freePool s L) order (s'.block p) (freePool s' L') := by
  have horder : ∀ c ∈ freePool s L, ∃ k : ListIndex, c.order = k ∧ L k ≠ [] := by
    intro c hc
    obtain ⟨q, ⟨k, hq⟩, rfl⟩ := mem_freePool.mp hc
    exact ⟨k, hwf.order k q hq, List.ne_nil_of_mem hq⟩
  by_cases hle : order ≤ pageMaxOrder
  · rcases hsel : selectList s (pageMaxOrder + 1) order with _ | k
    · refine Or.inl ⟨by rw [pmAllocatePages, if_neg (by omega), hsel], fun c hc ↦ ?_⟩
      obtain ⟨k, hk, hne⟩ := horder c hc
      by_contra hcon
      have h0 := selectList_eq_none hsel (by omega) k (by omega)
      rw [hwf.count] at h0
      exact hne (List.eq_nil_of_length_eq_zero h0)
    · obtain ⟨hk, hcount, hfirst⟩ := selectList_eq_some hsel
      rcases hL : L k with _ | ⟨p, rest⟩
      · exact absurd (by rw [hwf.count, hL]; rfl) hcount
      obtain ⟨s', L', hrun, hT, hS⟩ := pmAllocatePages_eq hwf.sound hle hsel hL
      exact Or.inr ⟨p, s', L', hrun, hwf.took hk hfirst hT hS, hwf.take hk hT⟩
  · refine Or.inl ⟨by rw [pmAllocatePages, if_pos (by omega)], fun c hc ↦ ?_⟩
    obtain ⟨k, hk, -⟩ := horder c hc
    omega

end Step

/-! ## Many calls -/

/-- The blocks among the answers. -/
def returnedBlocks (bs : List (Option Block)) : List Block := bs.filterMap id

@[simp] theorem returnedBlocks_some (b : Block) (bs : List (Option Block)) :
    returnedBlocks (some b :: bs) = b :: returnedBlocks bs := rfl

/-- An answer to a request of some order: `NULL`, or an aligned block of that order. -/
def Answers (order : ℕ) (b : Option Block) : Prop :=
  ∀ c, b = some c → c.order = order ∧ c.Aligned archPageSize

theorem allocateAll_cons {s s₁ : PmState} {order : ℕ} {orders : List ℕ} {p : Option ℕ}
    (hrun : pmAllocatePages s order = .ok (p, s₁)) {bs : List (Option Block)} {s' : PmState}
    (hall : allocateAll orders s₁ = .ok (bs, s')) :
    allocateAll (order :: orders) s = .ok (p.map s₁.block :: bs, s') := by
  rw [allocateAll, hrun]
  simp only [hall]

/-- What the calls for `orders`, answered by `bs`, have done. -/
structure Answered (s s' : PmState) (L L' : ListIndex → List ℕ) (A : Set Block) (orders : List ℕ)
    (bs : List (Option Block)) : Prop where
  /-- The state is well-formed, what was returned being allocated. -/
  wellFormed : WellFormed s' L' (A ∪ {b | b ∈ returnedBlocks bs})
  /-- Every call is answered. -/
  answers : List.Forall₂ Answers orders bs
  /-- No two of the blocks returned overlap. -/
  apart : (returnedBlocks bs).Pairwise fun b c ↦
    Disjoint (b.span archPageSize) (c.span archPageSize)
  /-- Each lies in a block that was free. -/
  inside : ∀ b ∈ returnedBlocks bs, ∃ c ∈ freePool s L, b.span archPageSize ⊆ c.span archPageSize
  /-- None of them overlaps what is still free. -/
  left : ∀ b ∈ returnedBlocks bs,
    Disjoint (b.span archPageSize) (poolSpan archPageSize (freePool s' L'))
  /-- What was free has been returned or still is. -/
  span : poolSpan archPageSize (freePool s L) =
    poolSpan archPageSize (freePool s' L') ∪ Spans {b | b ∈ returnedBlocks bs}

theorem allocateAll_answered {s : PmState} {L : ListIndex → List ℕ} {A : Set Block}
    (hwf : WellFormed s L A) (orders : List ℕ) :
    ∃ bs s' L', allocateAll orders s = .ok (bs, s') ∧ Answered s s' L L' A orders bs := by
  induction orders generalizing s L A with
  | nil =>
    refine ⟨[], s, L, rfl, ?_, .nil, .nil, by simp [returnedBlocks], by simp [returnedBlocks], ?_⟩
    · simpa [returnedBlocks] using hwf
    · simp [returnedBlocks, Spans]
  | cons order orders ih =>
    rcases hwf.served order with ⟨hrun, -⟩ | ⟨p, s₁, L₁, hrun, hwf₁, hT⟩
    · obtain ⟨bs, s', L', hall, hA⟩ := ih hwf
      exact ⟨none :: bs, s', L', allocateAll_cons hrun hall, hA.wellFormed,
        .cons (fun _ h ↦ by simp at h) hA.answers, hA.apart, hA.inside, hA.left, hA.span⟩
    · obtain ⟨bs, s', L', hall, hA⟩ := ih hwf₁
      obtain ⟨-, hal, hdisj⟩ := hT.pool hwf.pool
      -- what the later calls return, and what they leave, comes from what this one left
      have hd : Disjoint ((s₁.block p).span archPageSize)
          (poolSpan archPageSize (freePool s₁ L₁)) := by
        refine Set.disjoint_left.mpr fun x hx ↦ ?_
        rintro ⟨d, hd, hxd⟩
        exact Set.disjoint_left.mp (hdisj d hd) hx hxd
      rw [hA.span, Set.disjoint_union_right] at hd
      have hset : A ∪ {b | b ∈ s₁.block p :: returnedBlocks bs} =
          insert (s₁.block p) A ∪ {b | b ∈ returnedBlocks bs} := by
        ext c
        simp only [Set.mem_union, Set.mem_insert_iff, Set.mem_ofPred_eq, List.mem_cons]
        tauto
      have hinsert : {b | b ∈ s₁.block p :: returnedBlocks bs} =
          insert (s₁.block p) {b | b ∈ returnedBlocks bs} := by
        ext c; simp
      have horder : (s₁.block p).order = order := by
        obtain ⟨c, -, -, hb, -⟩ := hT
        rw [hb]
      refine ⟨some (s₁.block p) :: bs, s', L', allocateAll_cons hrun hall, ?_,
        .cons (fun c hc ↦ ?_) hA.answers, ?_, fun c hc ↦ ?_, fun c hc ↦ ?_, ?_⟩
      · rw [returnedBlocks_some, hset]; exact hA.wellFormed
      · rw [← Option.some.inj hc]; exact ⟨horder, hal⟩
      · refine List.pairwise_cons.mpr ⟨fun c hc ↦ ?_, hA.apart⟩
        refine hd.2.mono_right fun x hx ↦ ?_
        exact ⟨c, hc, hx⟩
      · rcases List.mem_cons.mp hc with rfl | hc
        · exact hT.inside _ (Or.inl rfl)
        · obtain ⟨d, hd, hcd⟩ := hA.inside c hc
          obtain ⟨e, he, hde⟩ := hT.inside d (Or.inr hd)
          exact ⟨e, he, hcd.trans hde⟩
      · rcases List.mem_cons.mp hc with rfl | hc
        · exact hd.1
        · exact hA.left c hc
      · rw [hT.span, hA.span, returnedBlocks_some, hinsert, spans_insert, Set.union_assoc]

/-- **No frame is lost.**  On a well-formed state, whatever is requested, no call faults; the
blocks returned are aligned, have the orders asked for and do not overlap, and they and the blocks
still free partition what was free before; the state is well-formed again. -/
theorem allocateAll_conserves {s : PmState} {L : ListIndex → List ℕ} {A : Set Block}
    (hwf : WellFormed s L A) (orders : List ℕ) :
    ∃ bs s' L', allocateAll orders s = .ok (bs, s') ∧
      WellFormed s' L' (A ∪ {b | b ∈ returnedBlocks bs}) ∧
      List.Forall₂ Answers orders bs ∧
      ((returnedBlocks bs).Pairwise fun b c ↦
        Disjoint (b.span archPageSize) (c.span archPageSize)) ∧
      (∀ b ∈ returnedBlocks bs,
        Disjoint (b.span archPageSize) (poolSpan archPageSize (freePool s' L'))) ∧
      poolSpan archPageSize (freePool s L) =
        poolSpan archPageSize (freePool s' L') ∪ Spans {b | b ∈ returnedBlocks bs} := by
  obtain ⟨bs, s', L', hall, hA⟩ := allocateAll_answered hwf orders
  exact ⟨bs, s', L', hall, hA.wellFormed, hA.answers, hA.apart, hA.left, hA.span⟩

/-- With the 4 MiB at 4 MiB free, a call for more than that changes nothing, and the next one gets
it whole. -/
theorem allocateAll_conserves_oneBlock : ∃ bs s' L',
    allocateAll [11, 10] oneBlock = .ok (bs, s') ∧
      poolSpan archPageSize (freePool oneBlock (singleLists 10 (pageSlot pageMaxSize))) =
        poolSpan archPageSize (freePool s' L') ∪ Spans {b | b ∈ returnedBlocks bs} := by
  obtain ⟨bs, s', L', hall, -, -, -, -, hspan⟩ :=
    allocateAll_conserves wellFormed_oneBlock [11, 10]
  exact ⟨bs, s', L', hall, hspan⟩

/-! ## Optimality -/

/-- Requests that come with the larger ones first are all served if the capacity is enough. -/
theorem allocateAll_of_enough {s : PmState} {L : ListIndex → List ℕ} {A : Set Block}
    (hwf : WellFormed s L A) {orders : List ℕ} (hsorted : orders.Pairwise (· ≥ ·))
    (henough : Enough (freePool s L) orders) :
    ∃ bs s', allocateAll orders s = .ok (bs, s') ∧ none ∉ bs := by
  induction orders generalizing s L A with
  | nil => exact ⟨[], s, rfl, by simp⟩
  | cons order orders ih =>
    rw [List.pairwise_cons] at hsorted
    rcases hwf.served order with ⟨-, hsmall⟩ | ⟨p, s₁, L₁, hrun, hwf₁, hT⟩
    · obtain ⟨c, hc, hle⟩ := henough.exists_le
      exact absurd (hsmall c hc) (by omega)
    · obtain ⟨bs, s', hall, hbs⟩ :=
        ih hwf₁ hsorted.2 (henough.tail (by decide) hwf.pool hsorted.1 hT)
      exact ⟨some (s₁.block p) :: bs, s', allocateAll_cons hrun hall, by simpa using hbs⟩

theorem returnedBlocks_order {orders : List ℕ} {bs : List (Option Block)}
    (hreq : List.Forall₂ Answers orders bs) (hall : none ∉ bs) :
    (returnedBlocks bs).map Block.order = orders := by
  induction hreq with
  | nil => rfl
  | @cons order b orders bs hb _ ih =>
    rw [List.mem_cons, not_or] at hall
    obtain ⟨c, rfl⟩ := Option.ne_none_iff_exists'.mp (Ne.symm hall.1)
    rw [returnedBlocks_some, List.map_cons, ih hall.2, (hb c rfl).1]

/-- **What can be served at all is served.**  On a well-formed state, a list of requests with the
larger ones first is served in full if and only if blocks of those sizes that do not overlap can be
placed inside the free blocks, aligned or not. -/
theorem allocateAll_optimal {s : PmState} {L : ListIndex → List ℕ} {A : Set Block}
    (hwf : WellFormed s L A) {orders : List ℕ} (hsorted : orders.Pairwise (· ≥ ·)) :
    ∃ bs s', allocateAll orders s = .ok (bs, s') ∧
      (none ∉ bs ↔ Fits archPageSize (freePool s L) orders) := by
  obtain ⟨bs, s', L', hall, hA⟩ := allocateAll_answered hwf orders
  refine ⟨bs, s', hall, fun hbs ↦ ?_, fun hfits ↦ ?_⟩
  · exact ⟨returnedBlocks bs, returnedBlocks_order hA.answers hbs, hA.apart, hA.inside⟩
  · have henough : Enough (freePool s L) orders := fun order _ ↦
      demand_le_capacity (by decide) hfits order
    obtain ⟨bs', s'', hall', hbs'⟩ := allocateAll_of_enough hwf hsorted henough
    rw [hall, Except.ok.injEq, Prod.mk.injEq] at hall'
    rw [hall'.1]
    exact hbs'

/-- With the 4 MiB at 4 MiB free, a request for 2 MiB and two for 1 MiB after it are served, since
the blocks can be placed one behind the other. -/
theorem allocateAll_optimal_oneBlock : ∃ bs s',
    allocateAll [9, 8, 8] oneBlock = .ok (bs, s') ∧ none ∉ bs := by
  obtain ⟨bs, s', hall, hiff⟩ := allocateAll_optimal wellFormed_oneBlock
    (show [9, 8, 8].Pairwise (· ≥ ·) by decide)
  refine ⟨bs, s', hall, hiff.mpr ?_⟩
  have hfree : (⟨pageMaxSize, 10⟩ : Block) ∈
      freePool oneBlock (singleLists 10 (pageSlot pageMaxSize)) := by
    refine mem_freePool.mpr ⟨pageSlot pageMaxSize, by rw [listed_singleLists]; rfl, ?_⟩
    simp [PmState.block, oneBlock, singleState, blockPages]
  refine ⟨[⟨pageMaxSize, 9⟩, ⟨pageMaxSize + 2 ^ 21, 8⟩, ⟨pageMaxSize + 2 ^ 21 + 2 ^ 20, 8⟩], rfl,
    ?_, fun b hb ↦ ⟨_, hfree, fun x hx ↦ ?_⟩⟩
  · simp only [List.pairwise_cons, List.mem_cons, List.not_mem_nil, or_false, Set.disjoint_left,
      Block.mem_span]
    refine ⟨?_, ?_, ?_, .nil⟩
    · rintro c (rfl | rfl) x <;> simp only [pageMaxSize, archPageSize] <;> omega
    · rintro c rfl x
      simp only [pageMaxSize, archPageSize]
      omega
    · intro c hc
      exact hc.elim
  · simp only [List.mem_cons, List.not_mem_nil, or_false] at hb
    rw [Block.mem_span] at hx ⊢
    rcases hb with rfl | rfl | rfl <;> simp only [pageMaxSize, archPageSize] at hx ⊢ <;> omega

end CubikOS

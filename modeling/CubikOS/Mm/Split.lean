import CubikOS.Mm.Page

/-!
# Splitting a block

`PM_ExpandPage` and the loop that `PM_AllocatePages` runs it in.

What the allocator maintains is stated here in two halves.  `FreeLists s L` is about the links:
the list nodes spell out the lists `L`.  `Blocks s Q taken` is about the blocks that the
descriptors in `Q` stand for: each is one aligned block, free, with a descriptor for each of its
frames and no link in those inside it; no two overlap, and none reaches into `taken`, a set of
physical addresses that must not be handed out.

During the loop the block being cut is on no list, but it still carries the links it had on the
list it was taken from, and each round unlinks it again.  `Detached` says what those links are.
A round puts that list back to what it was when the block was taken off (`Lists.unlink_stale`), so
the only thing a stale link can do here is to drop again what a round itself has put there, which
happens when the block's order exceeds the index of the list it was found on.
-/

set_option autoImplicit false

namespace CubikOS

open Intrusive Buddy

/-- An index of `pf_freelist`. -/
abbrev ListIndex := Fin (pageMaxOrder + 1)

/-! ## The two halves of the invariant -/

/-- The list nodes spell out the lists `L`. -/
def FreeLists (s : PmState) (L : ListIndex → List ℕ) : Prop :=
  Lists s.links Node.handle fun k ↦ (L k).map Node.frame

/-- The descriptors on some list. -/
def Listed (L : ListIndex → List ℕ) : Set ℕ := {p | ∃ k, p ∈ L k}

/-- The descriptor in slot `p` heads a free block. -/
structure FreeBlock (s : PmState) (p : ℕ) : Prop where
  /-- It is marked free. -/
  free : (s.page p).free = true
  /-- The block is aligned to its own size. -/
  aligned : (s.block p).Aligned archPageSize
  /-- The block ends below `2 ^ 64`. -/
  bound : (s.page p).addr + archPageSize * 2 ^ (s.page p).order ≤ 2 ^ 64
  /-- The descriptors of its frames follow one another. -/
  addr : ∀ i, i < 2 ^ (s.page p).order →
    (s.page (p + i)).addr = (s.page p).addr + archPageSize * i
  /-- Those inside the block carry no link. -/
  inner : ∀ i, 0 < i → i < 2 ^ (s.page p).order → s.links (.frame (p + i)) = Link.null

/-- The descriptors in `Q` head free blocks that overlap neither each other nor `taken`. -/
structure Blocks (s : PmState) (Q taken : Set ℕ) : Prop where
  /-- Each heads a free block. -/
  block : ∀ p ∈ Q, FreeBlock s p
  /-- No two of the blocks overlap. -/
  apart : ∀ p ∈ Q, ∀ q ∈ Q, p ≠ q →
    Disjoint ((s.block p).span archPageSize) ((s.block q).span archPageSize)
  /-- None of them overlaps `taken`. -/
  taken : ∀ p ∈ Q, Disjoint ((s.block p).span archPageSize) taken

theorem Blocks.mono {s : PmState} {Q Q' T : Set ℕ} (hB : Blocks s Q T) (h : Q' ⊆ Q) :
    Blocks s Q' T :=
  ⟨fun p hp ↦ hB.block p (h hp), fun p hp q hq ↦ hB.apart p (h hp) q (h hq),
    fun p hp ↦ hB.taken p (h hp)⟩

/-- The blocks do not see counters, nor descriptors outside blocks, nor links outside the insides
of blocks. -/
theorem Blocks.congr {s s' : PmState} {Q T : Set ℕ} (hB : Blocks s Q T)
    (haddr : ∀ p ∈ Q, ∀ i, i < 2 ^ (s.page p).order →
      (s'.page (p + i)).addr = (s.page (p + i)).addr)
    (horder : ∀ p ∈ Q, (s'.page p).order = (s.page p).order)
    (hfree : ∀ p ∈ Q, (s'.page p).free = true)
    (hlinks : ∀ p ∈ Q, ∀ i, 0 < i → i < 2 ^ (s.page p).order →
      s.links (.frame (p + i)) = Link.null → s'.links (.frame (p + i)) = Link.null) :
    Blocks s' Q T := by
  have hhead : ∀ p ∈ Q, (s'.page p).addr = (s.page p).addr := by
    intro p hp
    simpa using haddr p hp 0 (Nat.two_pow_pos _)
  have hblock : ∀ p ∈ Q, s'.block p = s.block p := by
    intro p hp; rw [PmState.block, PmState.block, hhead p hp, horder p hp]
  refine ⟨fun p hp ↦ ?_, fun p hp q hq hpq ↦ ?_, fun p hp ↦ ?_⟩
  · have hb := hB.block p hp
    refine ⟨hfree p hp, ?_, ?_, ?_, ?_⟩
    · rw [hblock p hp]; exact hb.aligned
    · rw [hhead p hp, horder p hp]; exact hb.bound
    · intro i hi
      rw [horder p hp] at hi
      rw [haddr p hp i hi, hhead p hp]; exact hb.addr i hi
    · intro i h0 hi
      rw [horder p hp] at hi
      exact hlinks p hp i h0 hi (hb.inner i h0 hi)
  · rw [hblock p hp, hblock q hq]; exact hB.apart p hp q hq hpq
  · rw [hblock p hp]; exact hB.taken p hp

theorem Blocks.insert_block {s : PmState} {Q T : Set ℕ} (hB : Blocks s Q T) {p : ℕ}
    (hp : FreeBlock s p)
    (hQ : ∀ q ∈ Q, Disjoint ((s.block p).span archPageSize) ((s.block q).span archPageSize))
    (hT : Disjoint ((s.block p).span archPageSize) T) : Blocks s (insert p Q) T := by
  refine ⟨?_, ?_, ?_⟩
  · rintro q (rfl | hq)
    · exact hp
    · exact hB.block q hq
  · rintro q (rfl | hq) r (rfl | hr) hqr
    · exact absurd rfl hqr
    · exact hQ r hr
    · exact (hQ q hq).symm
    · exact hB.apart q hq r hr hqr
  · rintro q (rfl | hq)
    · exact hT
    · exact hB.taken q hq

/-- A descriptor inside one block does not belong to another. -/
theorem Blocks.slot_ne {s : PmState} {Q T : Set ℕ} (hB : Blocks s Q T) {p q i j : ℕ}
    (hp : p ∈ Q) (hq : q ∈ Q) (hpq : p ≠ q) (hi : i < 2 ^ (s.page p).order)
    (hj : j < 2 ^ (s.page q).order) : p + i ≠ q + j := by
  -- the descriptor would describe a frame of both blocks
  intro heq
  have h1 := (hB.block p hp).addr i hi
  have h2 := (hB.block q hq).addr j hj
  rw [heq] at h1
  have hmem : (s.page (q + j)).addr ∈ (s.block p).span archPageSize := by
    rw [Block.mem_span, PmState.block]; dsimp only [archPageSize] at *; omega
  refine Set.disjoint_left.mp (hB.apart p hp q hq hpq) hmem ?_
  rw [Block.mem_span, PmState.block]; dsimp only [archPageSize] at *; omega

theorem Blocks.head_ne {s : PmState} {Q T : Set ℕ} (hB : Blocks s Q T) {p q i : ℕ}
    (hp : p ∈ Q) (hq : q ∈ Q) (h0 : 0 < i) (hi : i < 2 ^ (s.page p).order) : p + i ≠ q := by
  rcases eq_or_ne p q with rfl | hpq
  · omega
  · have := hB.slot_ne hp hq hpq hi (Nat.two_pow_pos _)
    simpa using this

theorem FreeLists.prev_ne_none {s : PmState} {L : ListIndex → List ℕ} (hL : FreeLists s L)
    {p : ℕ} (hp : p ∈ Listed L) : (s.links (.frame p)).prev ≠ none := by
  obtain ⟨k, hk⟩ := hp
  exact (hL.chain k).prev_ne_none (List.mem_map_of_mem hk)

/-- A descriptor without links is on no list. -/
theorem FreeLists.notMem_of_null {s : PmState} {L : ListIndex → List ℕ} (hL : FreeLists s L)
    {p : ℕ} (hp : s.links (.frame p) = Link.null) : p ∉ Listed L := by
  intro hmem
  exact hL.prev_ne_none hmem (by rw [hp]; rfl)

/-- Taking a block off its list leaves the links of every descriptor alone that is on none. -/
theorem FreeLists.unlink_frame {s : PmState} {L : ListIndex → List ℕ} (hL : FreeLists s L)
    {p y : ℕ} (hp : p ∈ Listed L) (hy : y ∉ Listed L) :
    s.links.unlink (.frame p) (.frame y) = s.links (.frame y) := by
  obtain ⟨k, hk⟩ := hp
  refine Lists.unlink_apply hL (List.mem_map_of_mem hk) fun j hj ↦ ?_
  rcases List.mem_cons.mp hj with hj | hj
  · simp at hj
  · obtain ⟨z, hz, hzy⟩ := List.mem_map.mp hj
    rw [Node.frame.injEq] at hzy
    exact hy ⟨j, hzy ▸ hz⟩

theorem map_update (L : ListIndex → List ℕ) (k : ListIndex) (l : List ℕ) :
    (Function.update (fun j ↦ (L j).map Node.frame) k (l.map Node.frame)) =
      fun j ↦ (Function.update L k l j).map Node.frame := by
  funext j
  rcases eq_or_ne j k with rfl | hj
  · simp
  · simp [Function.update_of_ne hj]

/-! ## One round -/

/-- The descriptor in slot `p` is on no list, and carries the links it had as the first node of a
list `m` on which `rest` came after it.  Since then `front` has been put in front of `rest`. -/
structure Detached (s : PmState) (L : ListIndex → List ℕ) (m : ListIndex) (front rest : List ℕ)
    (p : ℕ) : Prop where
  /-- The links spell out the lists. -/
  lists : FreeLists s L
  /-- The list it came from is `front` and then `rest`. -/
  split : L m = front ++ rest
  /-- It is on none of them. -/
  notMem : p ∉ Listed L
  /-- Its leftover `prev` link leads to the head of that list. -/
  prev : (s.links (.frame p)).prev = some (.handle m)
  /-- Its leftover `next` link leads to the first node of `rest`. -/
  next : (s.links (.frame p)).next = (rest.map Node.frame).head?

/-- The state after `PM_ExpandPage` has cut the block of order `o + 1` in slot `p`. -/
def expandState (s : PmState) (p o : ℕ) (ho : o < pageMaxOrder + 1) : PmState where
  links := linkedListAppend (linkedListRemove s.links (.frame p))
    (some (.handle ⟨o, ho⟩)) (some (.frame (p + 2 ^ o)))
  count := Function.update s.count ⟨o, ho⟩ ((s.count ⟨o, ho⟩ + 1) % 2 ^ 32)
  page := Function.update (Function.update s.page p { s.page p with order := o }) (p + 2 ^ o)
    ⟨o, true, ((s.page p).addr + 2 ^ o * archPageSize) % 2 ^ 64⟩
  present := s.present

theorem pmExpandPage_succ {s : PmState} {p o : ℕ} (ho : (s.page p).order = o + 1)
    (h : o < pageMaxOrder + 1) : pmExpandPage s p = .ok (some p, expandState s p o h) := by
  have hne : (s.page p).order ≠ 0 := by omega
  have ho' : (s.page p).order - 1 = o := by omega
  simp only [pmExpandPage, hne, if_false, PmState.setLinks_page, ho', dif_pos h,
    PmState.setPage_page, Function.update_self]
  rfl

section Round

variable {s : PmState} {L : ListIndex → List ℕ} {m : ListIndex} {front rest : List ℕ} {p o : ℕ}
  {T : Set ℕ} {h : o < pageMaxOrder + 1}

theorem expandState_page_self : ((expandState s p o h).page p) = { s.page p with order := o } := by
  simp [expandState]

theorem expandState_page_of_ne {x : ℕ} (hx : x ≠ p) (hx' : x ≠ p + 2 ^ o) :
    (expandState s p o h).page x = s.page x := by
  simp [expandState, Function.update_of_ne hx', Function.update_of_ne hx]

theorem expandState_page_new (hb : FreeBlock s p) (ho : (s.page p).order = o + 1) :
    (expandState s p o h).page (p + 2 ^ o) =
      ⟨o, true, (s.page p).addr + archPageSize * 2 ^ o⟩ := by
  have hbound := hb.bound
  rw [ho, pow_succ] at hbound
  have : 0 < 2 ^ o := Nat.two_pow_pos o
  simp only [expandState, Function.update_self, Pageframe.mk.injEq, true_and]
  rw [Nat.mod_eq_of_lt (by dsimp only [archPageSize] at *; omega), Nat.mul_comm]

theorem expandState_count (k : ListIndex) : (expandState s p o h).count k =
    if (k : ℕ) = o then (s.count k + 1) % 2 ^ 32 else s.count k := by
  simp only [expandState, Function.update_apply]
  split
  · rename_i hk; rw [hk, if_pos rfl]
  · rename_i hk; rw [if_neg fun hc ↦ hk (Fin.ext hc)]

/-- Cutting a block moves no frame: the new descriptor is given the address it already had. -/
theorem expandState_addr (hb : FreeBlock s p) (ho : (s.page p).order = o + 1) (x : ℕ) :
    ((expandState s p o h).page x).addr = (s.page x).addr := by
  by_cases hx' : x = p + 2 ^ o
  · rw [hx', expandState_page_new hb ho, hb.addr (2 ^ o)]
    rw [ho, pow_succ]; have := Nat.two_pow_pos o; omega
  by_cases hx : x = p
  · rw [hx, expandState_page_self]
  · rw [expandState_page_of_ne hx hx']

/-- The lists after a round: list `m` is put back to `rest`, and the upper half goes to the front
of the list of its order. -/
def expandLists (L : ListIndex → List ℕ) (m : ListIndex) (rest : List ℕ) (o : ListIndex)
    (x : ℕ) : ListIndex → List ℕ :=
  Function.update (Function.update L m rest) o (x :: Function.update L m rest o)

theorem mem_of_mem_update (hsplit : L m = front ++ rest) {k : ListIndex} {y : ℕ}
    (hy : y ∈ Function.update L m rest k) : y ∈ L k := by
  rcases eq_or_ne k m with rfl | hk
  · rw [Function.update_self] at hy
    rw [hsplit]; simp [hy]
  · rwa [Function.update_of_ne hk] at hy

theorem listed_expandLists_subset (hsplit : L m = front ++ rest) {o : ListIndex} {x : ℕ} :
    Listed (expandLists L m rest o x) ⊆ insert x (Listed L) := by
  rintro y ⟨k, hy⟩
  rw [expandLists] at hy
  rcases eq_or_ne k o with rfl | hk
  · rw [Function.update_self] at hy
    rcases List.mem_cons.mp hy with rfl | hy
    · exact Set.mem_insert _ _
    · exact Set.mem_insert_of_mem _ ⟨k, mem_of_mem_update hsplit hy⟩
  · rw [Function.update_of_ne hk] at hy
    exact Set.mem_insert_of_mem _ ⟨k, mem_of_mem_update hsplit hy⟩

/-- The descriptor of the upper half was inside the block: it has no links yet. -/
theorem FreeBlock.upper_null (hb : FreeBlock s p) (ho : (s.page p).order = o + 1) :
    s.links (.frame (p + 2 ^ o)) = Link.null := by
  have := Nat.two_pow_pos o
  exact hb.inner (2 ^ o) this (by rw [ho, pow_succ]; omega)

/-- The lists once the block in slot `p` is unlinked again. -/
theorem Detached.unlink (hD : Detached s L m front rest p) :
    Lists (s.links.unlink (.frame p)) Node.handle
      fun k ↦ (Function.update L m rest k).map Node.frame := by
  have h1 : (L m).map Node.frame = front.map Node.frame ++ rest.map Node.frame := by
    rw [hD.split, List.map_append]
  have h2 := Lists.unlink_stale hD.lists h1 hD.prev hD.next
  rwa [map_update] at h2

/-- Unlinking the block again rewrites no link of a descriptor that is on no list. -/
theorem Detached.unlink_frame (hD : Detached s L m front rest p) {y : ℕ} (hy : y ∉ Listed L) :
    s.links.unlink (.frame p) (.frame y) = s.links (.frame y) := by
  have hnext : (s.links (.frame p)).next ≠ some (.frame y) := by
    rw [hD.next]
    intro h1
    obtain ⟨z, hz, hzy⟩ := List.mem_map.mp (List.mem_of_head? h1)
    rw [Node.frame.injEq] at hzy
    subst hzy
    exact hy ⟨m, by rw [hD.split]; simp [hz]⟩
  have h1 := Heap.unlink_next s.links (.frame p) (.frame y)
  have h2 := Heap.unlink_prev s.links (.frame p) (.frame y)
  rw [hD.prev, if_neg (by simp)] at h1
  rw [if_neg hnext] at h2
  exact Link.ext h2 h1

/-- The links after a round, with the append spelled out: the upper half has no links, so it is
inserted as it should be. -/
theorem Detached.expandState_links (hD : Detached s L m front rest p)
    (hb : FreeBlock s p) (ho : (s.page p).order = o + 1) :
    (expandState s p o h).links =
      (s.links.unlink (.frame p)).linkAfter (.handle ⟨o, h⟩) (.frame (p + 2 ^ o)) := by
  have hnull := hb.upper_null ho
  rw [expandState]
  refine linkedListAppend_eq (Or.inr ?_)
  rw [linkedListRemove_eq, hD.unlink_frame (hD.lists.notMem_of_null hnull), hnull]
  rfl

theorem Detached.lists_expandState (hD : Detached s L m front rest p) (hb : FreeBlock s p)
    (ho : (s.page p).order = o + 1) :
    FreeLists (expandState s p o h) (expandLists L m rest ⟨o, h⟩ (p + 2 ^ o)) := by
  have hnotMem := hD.lists.notMem_of_null (hb.upper_null ho)
  have h1 := hD.unlink.linkHead ⟨o, h⟩ (x := .frame (p + 2 ^ o))
    (by
      intro k hx
      obtain ⟨y, hy, hyx⟩ := List.mem_map.mp hx
      rw [Node.frame.injEq] at hyx
      exact hnotMem (hyx ▸ ⟨k, mem_of_mem_update hD.split hy⟩))
    (by simp)
  rw [FreeLists, hD.expandState_links hb ho]
  rw [← List.map_cons, map_update] at h1
  exact h1

/-- A round leaves the links of every descriptor alone that is on no list and is not the new
upper half. -/
theorem Detached.expandState_links_frame (hD : Detached s L m front rest p) (hb : FreeBlock s p)
    (ho : (s.page p).order = o + 1) {y : ℕ} (hy : y ∉ Listed L) (hyx : y ≠ p + 2 ^ o) :
    (expandState s p o h).links (.frame y) = s.links (.frame y) := by
  have hframe := hD.unlink_frame hy
  -- the only descriptor relinked by the insertion is the one that was first on the list
  have hfirst : (s.links.unlink (.frame p) (.handle ⟨o, h⟩)).next ≠ some (.frame y) := by
    rw [(hD.unlink.chain ⟨o, h⟩).next_head]
    intro h1
    obtain ⟨z, hz, hzy⟩ := List.mem_map.mp (List.mem_of_head? h1)
    rw [Node.frame.injEq] at hzy
    subst hzy
    exact hy ⟨_, mem_of_mem_update hD.split hz⟩
  have h1 := Heap.linkAfter_next (s.links.unlink (.frame p)) (.handle ⟨o, h⟩)
    (.frame (p + 2 ^ o)) (.frame y)
  have h2 := Heap.linkAfter_prev (s.links.unlink (.frame p)) (.handle ⟨o, h⟩)
    (.frame (p + 2 ^ o)) (.frame y)
  rw [if_neg (by simp), if_neg (by simpa using hyx), ← hD.expandState_links hb ho, hframe] at h1
  rw [if_neg hfirst, if_neg (by simpa using hyx), ← hD.expandState_links hb ho, hframe] at h2
  exact Link.ext h2 h1

/-- Cutting one of the blocks in two: both halves are blocks, and every other one is untouched. -/
theorem Blocks.expand {Q : Set ℕ} (hB : Blocks s Q T) (hp : p ∈ Q)
    (ho : (s.page p).order = o + 1)
    (hlinks : ∀ y, s.links (.frame y) = Link.null → y ≠ p + 2 ^ o →
      (expandState s p o h).links (.frame y) = Link.null) :
    Blocks (expandState s p o h) (insert (p + 2 ^ o) Q) T := by
  have hb := hB.block p hp
  have hpow : 2 ^ (s.page p).order = 2 ^ o + 2 ^ o := by rw [ho, pow_succ]; omega
  have hpos := Nat.two_pow_pos o
  have haddr := expandState_addr (h := h) hb ho
  have hself := expandState_page_self (s := s) (p := p) (h := h)
  have hnew := expandState_page_new (h := h) hb ho
  have hbp : s.block p = ⟨(s.page p).addr, o + 1⟩ := by rw [PmState.block, ho]
  have hbp' : (expandState s p o h).block p = ⟨(s.page p).addr, o⟩ := by
    rw [PmState.block, hself]
  have hbx' : (expandState s p o h).block (p + 2 ^ o) =
      upperHalf archPageSize (s.page p).addr o := by rw [PmState.block, hnew]; rfl
  have hother : ∀ q ∈ Q, q ≠ p → (expandState s p o h).page q = s.page q := by
    intro q hq hqp
    exact expandState_page_of_ne hqp
      (hB.head_ne hp hq hpos (by omega)).symm
  -- every block of the new state lies in one of the old, and only the two halves in the same one
  have hsub : ∀ q ∈ insert (p + 2 ^ o) Q, ∃ r ∈ Q,
      ((expandState s p o h).block q).span archPageSize ⊆ (s.block r).span archPageSize ∧
        (q = r ∨ q = p + 2 ^ o ∧ r = p) := by
    intro q hq
    rcases Set.mem_insert_iff.mp hq with rfl | hq
    · refine ⟨p, hp, ?_, Or.inr ⟨rfl, rfl⟩⟩
      rw [hbx', hbp]; exact upperHalf_span_subset (Nat.lt_succ_self o)
    · refine ⟨q, hq, ?_, Or.inl rfl⟩
      rcases eq_or_ne q p with rfl | hqp
      · rw [hbp', hbp]; exact span_mono (Nat.le_succ o)
      · rw [PmState.block, hother q hq hqp]; exact Set.Subset.rfl
  refine ⟨fun q hq ↦ ?_, fun q hq q' hq' hqq' ↦ ?_, fun q hq ↦ ?_⟩
  · have hal := hb.aligned
    have hbound := hb.bound
    rw [hbp] at hal
    rw [hpow] at hbound
    rcases Set.mem_insert_iff.mp hq with rfl | hq
    · refine ⟨by rw [hnew], by rw [hbx']; exact hal.upper, ?_, ?_, ?_⟩
      · rw [hnew]; dsimp only [archPageSize] at *; omega
      · rw [hnew]; dsimp only
        intro i hi
        rw [haddr, Nat.add_assoc, hb.addr _ (by omega)]
        dsimp only [archPageSize]; omega
      · rw [hnew]; dsimp only
        intro i h0 hi
        refine hlinks _ ?_ (by omega)
        rw [Nat.add_assoc]
        exact hb.inner _ (by omega) (by omega)
    · rcases eq_or_ne q p with rfl | hqp
      · refine ⟨by rw [hself]; exact hb.free, by rw [hbp']; exact hal.lower, ?_, ?_, ?_⟩
        · rw [hself]; dsimp only [archPageSize] at *; omega
        · rw [hself]; dsimp only
          intro i hi
          rw [haddr, hb.addr _ (by omega)]
        · rw [hself]; dsimp only
          intro i h0 hi
          exact hlinks _ (hb.inner _ h0 (by omega)) (by omega)
      · have hbq := hB.block q hq
        refine ⟨?_, ?_, ?_, ?_, ?_⟩
        · rw [hother q hq hqp]; exact hbq.free
        · rw [PmState.block, hother q hq hqp]; exact hbq.aligned
        · rw [hother q hq hqp]; exact hbq.bound
        · rw [hother q hq hqp]
          intro i hi
          rw [haddr]; exact hbq.addr i hi
        · rw [hother q hq hqp]
          intro i h0 hi
          exact hlinks _ (hbq.inner i h0 hi)
            (hB.slot_ne hq hp hqp hi (by omega))
  · obtain ⟨r, hr, hqr, hcase⟩ := hsub q hq
    obtain ⟨r', hr', hqr', hcase'⟩ := hsub q' hq'
    rcases eq_or_ne r r' with rfl | hrr'
    · rcases hcase with rfl | ⟨rfl, rfl⟩ <;> rcases hcase' with rfl | ⟨rfl, hr⟩
      · exact absurd rfl hqq'
      · subst hr
        rw [hbp', hbx']; exact disjoint_upperHalf _ _
      · rw [hbp', hbx']; exact (disjoint_upperHalf _ _).symm
      · exact absurd rfl hqq'
    · exact (hB.apart r hr r' hr' hrr').mono hqr hqr'
  · obtain ⟨r, hr, hqr, -⟩ := hsub q hq
    exact (hB.taken r hr).mono_left hqr

/-- A round leaves the block detached from the same list. -/
theorem Detached.expand (hD : Detached s L m front rest p) (hb : FreeBlock s p)
    (ho : (s.page p).order = o + 1) :
    Detached (expandState s p o h) (expandLists L m rest ⟨o, h⟩ (p + 2 ^ o)) m
      (if m = ⟨o, h⟩ then [p + 2 ^ o] else []) rest p := by
  have hne : p ≠ p + 2 ^ o := by have := Nat.two_pow_pos o; omega
  have hlinks := hD.expandState_links_frame (h := h) hb ho hD.notMem hne
  refine ⟨hD.lists_expandState hb ho, ?_, ?_, ?_, ?_⟩
  · rw [expandLists]
    split
    · rename_i hm; rw [← hm, Function.update_self, Function.update_self]; rfl
    · rename_i hm; rw [Function.update_of_ne hm, Function.update_self]; rfl
  · intro hp
    rcases listed_expandLists_subset hD.split hp with hp | hp
    · exact hne hp
    · exact hD.notMem hp
  · rw [hlinks]; exact hD.prev
  · rw [hlinks]; exact hD.next

theorem Detached.blocks_expand (hD : Detached s L m front rest p)
    (hB : Blocks s (insert p (Listed L)) T) (ho : (s.page p).order = o + 1) :
    Blocks (expandState s p o h)
      (insert p (Listed (expandLists L m rest ⟨o, h⟩ (p + 2 ^ o)))) T := by
  have hb := hB.block p (Set.mem_insert _ _)
  have h1 := hB.expand (h := h) (Set.mem_insert _ _) ho fun y hy hyx ↦ by
    rw [hD.expandState_links_frame hb ho (hD.lists.notMem_of_null hy) hyx, hy]
  refine h1.mono ?_
  rintro q (rfl | hq)
  · exact Set.mem_insert_of_mem _ (Set.mem_insert _ _)
  · rcases listed_expandLists_subset hD.split hq with rfl | hq
    · exact Set.mem_insert _ _
    · exact Set.mem_insert_of_mem _ (Set.mem_insert_of_mem _ hq)

end Round

/-! ## The loop -/

/-- What `n` rounds on the block of order `o` in slot `p`, taken from list `m`, do to the state:
one upper half of each order from `o - n` to `o - 1` is made and put onto the list of its
order. -/
structure Expanded (s s' : PmState) (L L' : ListIndex → List ℕ) (m : ListIndex)
    (rest : List ℕ) (p o n : ℕ) : Prop where
  /-- The other lists gain the upper halves. -/
  list_of_ne : ∀ k, k ≠ m →
    L' k = if o - n ≤ k ∧ k < o then (p + 2 ^ (k : ℕ)) :: L k else L k
  /-- The block's own list stays as it was left, if no upper half belongs on it. -/
  list_self : ¬ (o - n ≤ m ∧ m < o) → L m = rest → L' m = rest
  /-- Nothing else gets onto any list. -/
  mem : ∀ k, ∀ q ∈ L' k, q ∈ L k ∨ q = p + 2 ^ (k : ℕ) ∧ o - n ≤ k ∧ k < o
  /-- Each upper half is counted. -/
  count : ∀ k, s'.count k =
    if o - n ≤ k ∧ k < o then (s.count k + 1) % 2 ^ 32 else s.count k
  /-- The block itself only changes its order. -/
  page_self : s'.page p = { s.page p with order := o - n }
  /-- The upper halves are free blocks of their orders, at their addresses. -/
  page_new : ∀ j, o - n ≤ j → j < o →
    s'.page (p + 2 ^ j) = ⟨j, true, (s.page p).addr + archPageSize * 2 ^ j⟩
  /-- No other descriptor is touched. -/
  page_of_ne : ∀ x, x ≠ p → (∀ j, o - n ≤ j → j < o → x ≠ p + 2 ^ j) → s'.page x = s.page x
  /-- Nothing is mapped or unmapped. -/
  present : s'.present = s.present

theorem Expanded.refl {s : PmState} {L : ListIndex → List ℕ} {m : ListIndex} {rest : List ℕ}
    {p o : ℕ} (ho : (s.page p).order = o) : Expanded s s L L m rest p o 0 where
  list_of_ne k _ := by rw [if_neg (by omega)]
  list_self _ h := h
  mem _ _ h := Or.inl h
  count k := by rw [if_neg (by omega)]
  page_self := by rw [← ho]; rfl
  page_new j h1 h2 := by omega
  page_of_ne _ _ _ := rfl
  present := rfl

/-- What is done at order `o` and then at the `n` orders below it is done at the `n + 1` orders
up to `o`. -/
theorem ite_round {α : Type} (f : α → α) (a : α) (k o n : ℕ) :
    (if o - n ≤ k ∧ k < o then f (if k = o then f a else a) else if k = o then f a else a) =
      if o - n ≤ k ∧ k < o + 1 then f a else a := by
  rcases lt_trichotomy k o with hko | rfl | hko
  · have h1 : (o - n ≤ k ∧ k < o + 1) ↔ (o - n ≤ k ∧ k < o) := by omega
    simp only [h1, Nat.ne_of_lt hko, if_false]
  · simp
  · rw [if_neg (by omega), if_neg (by omega), if_neg (by omega)]

theorem Expanded.step {s s' : PmState} {L L' : ListIndex → List ℕ} {m : ListIndex}
    {front rest : List ℕ} {p o n : ℕ} {h : o < pageMaxOrder + 1}
    (hb : FreeBlock s p) (ho : (s.page p).order = o + 1) (hsplit : L m = front ++ rest)
    (hE : Expanded (expandState s p o h) s' (expandLists L m rest ⟨o, h⟩ (p + 2 ^ o)) L' m rest
      p o n) : Expanded s s' L L' m rest p (o + 1) (n + 1) := by
  have hlow : o + 1 - (n + 1) = o - n := by omega
  have hpow : ∀ j, j < o → p + 2 ^ o ≠ p + 2 ^ j := by
    intro j hj hcon
    have := Nat.pow_lt_pow_right (a := 2) (by omega) hj
    omega
  have hpos := Nat.two_pow_pos o
  have hself := expandState_page_self (s := s) (p := p) (h := h)
  -- the lists after the first round, off the list the block came from
  have hfirst : ∀ k, k ≠ m → expandLists L m rest ⟨o, h⟩ (p + 2 ^ o) k =
      if (k : ℕ) = o then (p + 2 ^ (k : ℕ)) :: L k else L k := by
    intro k hk
    rw [expandLists]
    split
    · rename_i hko
      obtain rfl : k = ⟨o, h⟩ := Fin.ext hko
      rw [Function.update_self, Function.update_of_ne hk]
    · rename_i hko
      rw [Function.update_of_ne (fun hc ↦ hko (by rw [hc])), Function.update_of_ne hk]
  refine ⟨fun k hk ↦ ?_, fun hm hrest ↦ ?_, fun k q hq ↦ ?_, fun k ↦ ?_, ?_, fun j h1 h2 ↦ ?_,
    fun x hx hx' ↦ ?_, hE.present⟩
  · rw [hE.list_of_ne k hk, hfirst k hk, hlow]
    exact ite_round (fun l ↦ (p + 2 ^ (k : ℕ)) :: l) (L k) k o n
  · refine hE.list_self (by omega) ?_
    have hmo : m ≠ ⟨o, h⟩ := by
      intro hc; rw [hc] at hm; simp only at hm; omega
    rw [expandLists, Function.update_of_ne hmo, Function.update_self]
  · rcases hE.mem k q hq with hq | ⟨rfl, h1, h2⟩
    · rw [expandLists] at hq
      rcases eq_or_ne k ⟨o, h⟩ with rfl | hk
      · rw [Function.update_self] at hq
        rcases List.mem_cons.mp hq with rfl | hq
        · exact Or.inr ⟨rfl, by simp only; omega, by simp only; omega⟩
        · exact Or.inl (mem_of_mem_update hsplit hq)
      · rw [Function.update_of_ne hk] at hq
        exact Or.inl (mem_of_mem_update hsplit hq)
    · exact Or.inr ⟨rfl, by omega, by omega⟩
  · rw [hE.count k, hlow, expandState_count]
    exact ite_round (fun c ↦ (c + 1) % 2 ^ 32) (s.count k) k o n
  · rw [hE.page_self, hself, hlow]
  · rw [hlow] at h1
    rcases Nat.lt_or_ge j o with hj | hj
    · rw [hE.page_new j h1 hj, hself]
    · obtain rfl : j = o := by omega
      rw [hE.page_of_ne _ (by omega) (fun j _ hj ↦ hpow j hj), expandState_page_new hb ho]
  · rw [hlow] at hx'
    rw [hE.page_of_ne x hx (fun j h1 h2 ↦ hx' j h1 (by omega)),
      expandState_page_of_ne hx (hx' o (by omega) (by omega))]

/-- **The split loop.**  From a detached block of order `o`, `n ≤ o` rounds succeed, and leave the
block detached at order `o - n`, with the invariant intact. -/
theorem expandLoop_spec {L : ListIndex → List ℕ} {m : ListIndex} {front rest : List ℕ}
    {p o n : ℕ} {s : PmState} {T : Set ℕ} (hD : Detached s L m front rest p)
    (hB : Blocks s (insert p (Listed L)) T) (ho : (s.page p).order = o) (hn : n ≤ o)
    (hmax : o ≤ pageMaxOrder) :
    ∃ s' L' front', expandLoop n s p = .ok (p, s') ∧ Detached s' L' m front' rest p ∧
      Blocks s' (insert p (Listed L')) T ∧ Expanded s s' L L' m rest p o n := by
  induction n generalizing s L front o with
  | zero => exact ⟨s, L, front, rfl, hD, hB, Expanded.refl ho⟩
  | succ n ih =>
    obtain ⟨o, rfl⟩ : ∃ o', o = o' + 1 := ⟨o - 1, by omega⟩
    have h : o < pageMaxOrder + 1 := by omega
    have hb := hB.block p (Set.mem_insert _ _)
    have hself : ((expandState s p o h).page p).order = o := by rw [expandState_page_self]
    obtain ⟨s', L', front', hrun, hD', hB', hE⟩ :=
      ih (hD.expand (h := h) hb ho) (hD.blocks_expand hB ho) hself (by omega) (by omega)
    refine ⟨s', L', front', ?_, hD', hB', hE.step hb ho hD.split⟩
    rw [expandLoop, pmExpandPage_succ ho h]
    exact hrun

end CubikOS

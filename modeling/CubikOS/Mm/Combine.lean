import CubikOS.Mm.Free

/-!
# Merging blocks

`PM_CombinePage`, which `PM_FreePages` calls until it returns `NULL`.

A block of order `k` has one buddy, the block its address leads to when bit `12 + k` is flipped.
`PM_CombinePage` looks behind the block when its address is a multiple of its size, which the
address of every block is, and takes the physical address it comes to for the address of a
descriptor.

When it finds that descriptor to be free it puts the merged block onto a list and returns it, and
`PM_FreePages` calls it again.  The last of these calls puts the block onto the list of its order,
on which it already is if there was a call before: the block becomes its own successor.
-/

set_option autoImplicit false

namespace CubikOS

open Intrusive Buddy

/-! ## The block that is looked at -/

/-- The physical address `PM_CombinePage` forms for the neighbour of a block. -/
def neighbourAddr (f : Pageframe) : ℕ :=
  if f.addr % (2 ^ f.order * archPageSize) = 0 then (f.addr + 2 ^ f.order * archPageSize) % 2 ^ 64
  else (f.addr + 2 ^ 64 - 2 ^ f.order * archPageSize) % 2 ^ 64

/-- The physical address of the buddy of a block. -/
def buddyAddr (f : Pageframe) : ℕ := f.addr ^^^ (archPageSize * 2 ^ f.order)

/-- The state in which `PM_FreePages` first calls `PM_CombinePage`. -/
def freedState (s : PmState) (p : ℕ) : PmState := s.setPage p { s.page p with free := true }

theorem buddyAddr_eq (f : Pageframe) : buddyAddr f =
    if f.addr / (archPageSize * 2 ^ f.order) % 2 = 0 then f.addr + archPageSize * 2 ^ f.order
    else f.addr - archPageSize * 2 ^ f.order := by
  have hsize : archPageSize * 2 ^ f.order = 2 ^ (12 + f.order) := by
    rw [pow_add, show archPageSize = 2 ^ 12 from rfl]
  rw [buddyAddr, hsize, xor_two_pow]

/-- **The block behind an aligned block is its buddy exactly when the block is a lower half.** -/
theorem neighbourAddr_eq_buddyAddr_iff {f : Pageframe}
    (hal : (Block.mk f.addr f.order).Aligned archPageSize)
    (hend : f.addr + archPageSize * 2 ^ f.order < 2 ^ 64) :
    neighbourAddr f = buddyAddr f ↔ f.addr / (archPageSize * 2 ^ f.order) % 2 = 0 := by
  have hpos : 0 < archPageSize * 2 ^ f.order := Nat.mul_pos (by decide) (Nat.two_pow_pos _)
  have hmod : f.addr % (2 ^ f.order * archPageSize) = 0 := by
    rw [Nat.mul_comm]; exact Nat.mod_eq_zero_of_dvd hal
  rw [neighbourAddr, if_pos hmod, Nat.mul_comm (2 ^ f.order), Nat.mod_eq_of_lt hend, buddyAddr_eq]
  constructor
  · intro heq
    by_contra hodd
    rw [if_neg hodd] at heq
    omega
  · intro heven
    rw [if_pos heven]

/-- The state after a step that merges `page` with the block in slot `newPage`. -/
def mergeState (s : PmState) (newPage result order : ℕ) (h : order < pageMaxOrder + 1) : PmState :=
  let s := s.setLinks (linkedListRemove s.links (.frame newPage))
  let s := s.setPage result { s.page result with order := order }
  s.setLinks (linkedListAppend s.links (some (.handle ⟨order, h⟩)) (some (.frame result)))

/-- The state after a step that lists `page`. -/
def listState (s : PmState) (page order : ℕ) (h : order < pageMaxOrder + 1) : PmState :=
  s.setLinks (linkedListAppend s.links (some (.handle ⟨order, h⟩)) (some (.frame page)))

/-- Which of the two descriptors stands for the merged block. -/
def combineResult (f : Pageframe) (page newPage : ℕ) : ℕ :=
  if f.addr % (2 ^ f.order * archPageSize) = 0 then page else newPage

section Step

variable {partner : ℕ → ℕ} {s s' : PmState} {p r : ℕ}

/-- `PM_CombinePage` in terms of the descriptor it looks at. -/
theorem pmCombinePage_eq {n q : ℕ} (hn : partner (neighbourAddr (s.page p)) = n)
    (hq : combineResult (s.page p) p n = q) : pmCombinePage partner s p =
      if s.present n = false then .error .pageFault
      else if (s.page n).free = true then
        if h : ((s.page q).order + 1) % 16 < pageMaxOrder + 1 then
          .ok (some q, mergeState s n q (((s.page q).order + 1) % 16) h)
        else .error .outOfBounds
      else if h : (s.page p).order < pageMaxOrder + 1 then
        .ok (none, listState s p (s.page p).order h)
      else .error .outOfBounds := by
  rw [neighbourAddr] at hn
  rw [combineResult] at hq
  simp only [pmCombinePage, hn, hq, Bool.not_eq_true']
  rfl

/-- **A step that merges**: the neighbour's descriptor is free, and the result is put onto the list
of the order it now has. -/
theorem pmCombinePage_some (hrun : pmCombinePage partner s p = .ok (some r, s')) :
    (s.page (partner (neighbourAddr (s.page p)))).free = true ∧
      ∃ (k : ℕ) (h : k < pageMaxOrder + 1),
        s' = mergeState s (partner (neighbourAddr (s.page p))) r k h := by
  rw [pmCombinePage_eq rfl rfl] at hrun
  split at hrun
  · simp at hrun
  · split at hrun
    · rename_i hfree
      split at hrun
      · rename_i h
        rw [Except.ok.injEq, Prod.mk.injEq, Option.some.injEq] at hrun
        obtain ⟨rfl, rfl⟩ := hrun
        exact ⟨hfree, _, h, rfl⟩
      · simp at hrun
    · split at hrun <;> simp at hrun

/-- **A step that does not**: the neighbour's descriptor is mapped and not free, and the block is
put onto the list of its order. -/
theorem pmCombinePage_none_iff : pmCombinePage partner s p = .ok (none, s') ↔
    s.present (partner (neighbourAddr (s.page p))) = true ∧
      (s.page (partner (neighbourAddr (s.page p)))).free = false ∧
      ∃ h : (s.page p).order < pageMaxOrder + 1, s' = listState s p (s.page p).order h := by
  rw [pmCombinePage_eq rfl rfl]
  constructor
  · intro hrun
    split at hrun
    · simp at hrun
    · rename_i hpresent
      split at hrun
      · split at hrun <;> simp at hrun
      · rename_i hfree
        split at hrun
        · rename_i h
          rw [Except.ok.injEq, Prod.mk.injEq] at hrun
          exact ⟨Bool.eq_true_of_not_eq_false hpresent, Bool.eq_false_iff.mpr hfree, h,
            hrun.2.symm⟩
        · simp at hrun
  · rintro ⟨hpresent, hfree, h, rfl⟩
    rw [if_neg (by rw [hpresent]; decide), if_neg (by rw [hfree]; decide), dif_pos h]

end Step

/-! ## The true buddy -/

/-- What is expected of a step on the block in slot `p`: it looks at the descriptor of the buddy, it
merges if that is the descriptor of a free block of the same order, and only then, and the result
is the lower of the two blocks, with an order one higher, aligned to its size. -/
structure CombinesBuddy (partner : ℕ → ℕ) (s : PmState) (p : ℕ) : Prop where
  /-- The descriptor looked at is the one `PM_GetPage` gives for the buddy. -/
  examines : partner (neighbourAddr (s.page p)) = pageSlot (buddyAddr (s.page p))
  /-- The two are merged if and only if the buddy is free and of the same order. -/
  merges : ∀ r s', pmCombinePage partner s p = .ok (r, s') → (r ≠ none ↔
    (s.page (pageSlot (buddyAddr (s.page p)))).free = true ∧
      (s.page (pageSlot (buddyAddr (s.page p)))).order = (s.page p).order)
  /-- The result is the lower one. -/
  lower : ∀ r s', pmCombinePage partner s p = .ok (some r, s') →
    s'.block r = ⟨min (s.page p).addr (buddyAddr (s.page p)), (s.page p).order + 1⟩ ∧
      (s'.block r).Aligned archPageSize

/-- No address is that of the descriptor of a block within 4 MiB of it, going around the end of the
address space if need be. -/
theorem castPage_ne_pageSlot {n b : ℕ} (hn : n < 2 ^ 64)
    (hnear : n ≤ b + 2 ^ 22 ∧ b ≤ n + 2 ^ 22 ∨ n < 2 ^ 21 ∧ 2 ^ 64 - 2 ^ 22 ≤ b ∧ b < 2 ^ 65 ∨
      2 ^ 64 - 2 ^ 21 ≤ n ∧ b ≤ 2 ^ 22) : castPage n ≠ pageSlot b := by
  intro heq
  have hslot := pageSlot_cases (b := b) (by omega)
  rw [← heq, castPage] at hslot
  dsimp only [pageframeSize] at hslot
  omega

/-- **The descriptor looked at is never that of the buddy.**  The address of a block, taken for the
address of a descriptor, is never where the descriptors of the blocks around it are. -/
theorem pmCombinePage_never_buddy {s : PmState} {p : ℕ} (haddr : (s.page p).addr < 2 ^ 64)
    (horder : (s.page p).order < pageMaxOrder) : ¬ CombinesBuddy castPage (freedState s p) p := by
  intro hC
  have hpage : (freedState s p).page p = { s.page p with free := true } :=
    Function.update_self p _ s.page
  have hexamines := hC.examines
  rw [hpage] at hexamines
  have hsize : archPageSize * 2 ^ (s.page p).order ≤ 2 ^ 21 := by
    refine le_trans (Nat.mul_le_mul_left _ (Nat.pow_le_pow_right (by decide)
      (Nat.le_of_lt_succ horder))) ?_
    decide
  -- the buddy is one block away, and so is the address taken for a descriptor's
  have hbuddy := buddyAddr_eq { s.page p with free := true }
  dsimp only at hbuddy
  have hneighbour : neighbourAddr { s.page p with free := true } =
      ((s.page p).addr + archPageSize * 2 ^ (s.page p).order) % 2 ^ 64 ∨
      neighbourAddr { s.page p with free := true } =
        ((s.page p).addr + 2 ^ 64 - archPageSize * 2 ^ (s.page p).order) % 2 ^ 64 := by
    rw [neighbourAddr, Nat.mul_comm archPageSize]
    split
    · exact Or.inl rfl
    · exact Or.inr rfl
  generalize neighbourAddr { s.page p with free := true } = n at hexamines hneighbour
  generalize buddyAddr { s.page p with free := true } = b at hexamines hbuddy
  generalize archPageSize * 2 ^ (s.page p).order = S at hsize hbuddy hneighbour
  refine castPage_ne_pageSlot (by rcases hneighbour with h | h <;> omega) ?_ hexamines
  split at hbuddy
  · rcases hneighbour with hn | hn <;> omega
  · rcases hneighbour with hn | hn <;> omega

/-! ## The calls one after the other -/

/-- The calls `PM_FreePages` makes from state `s` on the block in slot `p`, up to the one that
returns `NULL`: `A` are the descriptors of the blocks that are absorbed, `s'` is the state after the
last call and `q` the block it was made on. -/
inductive Combines (partner : ℕ → ℕ) : PmState → ℕ → List ℕ → PmState → ℕ → Prop
  | done {s s' : PmState} {p : ℕ} (h : pmCombinePage partner s p = .ok (none, s')) :
      Combines partner s p [] s' p
  | merge {s s₁ s' : PmState} {p r q : ℕ} {A : List ℕ}
      (h : pmCombinePage partner s p = .ok (some r, s₁)) (hrest : Combines partner s₁ r A s' q) :
      Combines partner s p
        ((if r = p then partner (neighbourAddr (s.page p)) else p) :: A) s' q

/-- The loop ends if and only if its calls do. -/
theorem combineLoop_iff {partner : ℕ → ℕ} {s s' : PmState} {p : ℕ} :
    (∃ fuel, combineLoop partner fuel s (some p) = .ok s') ↔
      ∃ A q, Combines partner s p A s' q := by
  constructor
  · rintro ⟨fuel, hrun⟩
    induction fuel generalizing s p with
    | zero => simp [combineLoop] at hrun
    | succ fuel ih =>
      rw [combineLoop] at hrun
      split at hrun
      · simp at hrun
      · rename_i r s₁ hcombine
        cases r with
        | none =>
          have hs : s₁ = s' := by
            cases fuel with
            | zero => simp [combineLoop] at hrun
            | succ fuel => simpa [combineLoop] using hrun
          exact ⟨[], p, Combines.done (hs ▸ hcombine)⟩
        | some r =>
          obtain ⟨A, q, hA⟩ := ih hrun
          exact ⟨_, q, Combines.merge hcombine hA⟩
  · rintro ⟨A, q, hA⟩
    induction hA with
    | done h => exact ⟨2, by simp only [combineLoop, h]⟩
    | merge h _ ih =>
      obtain ⟨fuel, hfuel⟩ := ih
      exact ⟨fuel + 1, by simp only [combineLoop, h, hfuel]⟩

/-! ## The block listed twice -/

/-- The block is the first one on the list of its order. -/
def OnTop (s : PmState) (p : ℕ) : Prop :=
  ∃ k : ListIndex, (s.page p).order = k ∧ (s.links (.handle k)).next = some (.frame p)

/-- Some list comes to a block that is its own successor. -/
def Loops (s : PmState) : Prop :=
  ∃ (k : ListIndex) (p : ℕ), (s.links (.handle k)).next = some (.frame p) ∧
    (s.links (.frame p)).next = some (.frame p)

theorem Loops.not_walk {s : PmState} (h : Loops s) :
    ∃ k : ListIndex, ∀ l, ¬ Walk s.links (.handle k) l := by
  obtain ⟨k, p, hhead, hself⟩ := h
  refine ⟨k, fun l hw ↦ ?_⟩
  cases l with
  | nil => exact absurd (hhead.symm.trans hw) (by simp)
  | cons b l =>
    obtain rfl : Node.frame p = b := Option.some.inj (hhead.symm.trans hw.1)
    cases l with
    | nil => exact absurd (hself.symm.trans hw.2) (by simp)
    | cons c l =>
      obtain rfl : Node.frame p = c := Option.some.inj (hself.symm.trans hw.2.1)
      exact (List.nodup_cons.mp hw.2.nodup).1 List.mem_cons_self

section Listing

variable {partner : ℕ → ℕ} {s s' : PmState} {p q r : ℕ} {A : List ℕ}

theorem listState_next {k : ListIndex} (b : Node) :
    ((listState s p k k.isLt).links b).next =
      if b = .handle k then some (.frame p)
      else if b = .frame p then (s.links (.handle k)).next.or (s.links (.frame p)).next
      else (s.links b).next := by
  rw [listState, PmState.setLinks_links]
  exact linkedListAppend_next s.links b (by simp)

theorem listState_head {k : ListIndex} :
    ((listState s p k k.isLt).links (.handle k)).next = some (.frame p) := by
  rw [listState_next, if_pos rfl]

/-- After a merge the block is on top of its list. -/
theorem onTop_of_merge (h : pmCombinePage partner s p = .ok (some r, s')) : OnTop s' r := by
  obtain ⟨-, k, hk, rfl⟩ := pmCombinePage_some h
  refine ⟨⟨k, hk⟩, ?_, ?_⟩
  · simp [mergeState]
  · rw [mergeState, PmState.setLinks_links, linkedListAppend_next _ _ (by simp), if_pos rfl]

/-- Listing a block that is on top of its list makes it its own successor. -/
theorem OnTop.loops (htop : OnTop s p) (h : pmCombinePage partner s p = .ok (none, s')) :
    Loops s' := by
  obtain ⟨-, -, hlt, rfl⟩ := pmCombinePage_none_iff.mp h
  obtain ⟨k, hk, hnext⟩ := htop
  simp only [hk] at hlt ⊢
  refine ⟨k, p, ?_, ?_⟩
  · rw [listState_next, if_pos rfl]
  · rw [listState_next, if_neg (by simp), if_pos rfl, hnext]
    rfl

theorem Combines.loops (hC : Combines partner s p A s' q) (htop : OnTop s p) : Loops s' := by
  induction hC with
  | done h => exact htop.loops h
  | merge h _ ih => exact ih (onTop_of_merge h)

/-- **A free that merges anything leaves a list that never ends.** -/
theorem Combines.eq_nil_or_loops (hC : Combines partner s p A s' q) :
    (A = [] ∧ q = p ∧ pmCombinePage partner s p = .ok (none, s')) ∨ Loops s' := by
  cases hC with
  | done h => exact Or.inl ⟨rfl, rfl, h⟩
  | merge h hrest => exact Or.inr (hrest.loops (onTop_of_merge h))

end Listing

/-! ## Freeing a block -/

/-- What is expected of `PM_FreePages`: it returns; walking any list from its head comes to an end;
the block that is left occurs once on the list of its order and on no other; and no list has a
block on it that was absorbed. -/
def FreesOnce (partner : ℕ → ℕ) (s : PmState) (p : ℕ) : Prop :=
  ∃ s' A q, (∃ fuel, pmFreePages partner fuel s (some p) = .ok s') ∧
    Combines partner (freedState s p) p A s' q ∧ ∃ k : ListIndex, (s'.page q).order = k ∧
      ∀ j : ListIndex, ∃ l, Walk s'.links (.handle j) l ∧
        l.count (.frame q) = (if j = k then 1 else 0) ∧ ∀ x ∈ A, Node.frame x ∉ l

section Frees

variable {partner : ℕ → ℕ} {s : PmState} {L : ListIndex → List ℕ} {A : Set Block} {p : ℕ}
  {k : ListIndex}

/-- An allocated block is on no list. -/
theorem ProperLists.notMem_of_allocated (hwf : ProperLists s L A) (hp : s.block p ∈ A)
    (j : ListIndex) : p ∉ L j := by
  intro hj
  have hbase := Block.base_mem_span (show 0 < archPageSize by decide) (s.block p)
  exact Set.disjoint_left.mp (hwf.taken p ⟨j, hj⟩) hbase ⟨s.block p, hp, hbase⟩

theorem ProperLists.frame_notMem (hwf : ProperLists s L A) (hp : s.block p ∈ A) (j : ListIndex) :
    Node.frame p ∉ (L j).map Node.frame := by
  intro hmem
  obtain ⟨x, hx, heq⟩ := List.mem_map.mp hmem
  exact hwf.notMem_of_allocated hp j (Node.frame.inj heq ▸ hx)

/-- The lists other than that of the block are walked as before. -/
theorem ProperLists.walk_of_ne (hwf : ProperLists s L A) (hp : s.block p ∈ A) {j : ListIndex}
    (hj : j ≠ k) : Walk (listState (freedState s p) p k k.isLt).links (.handle j)
      ((L j).map .frame) := by
  refine (hwf.lists.chain j).walk.congr fun b hb ↦ ?_
  have hne : b ≠ .frame p := by
    rintro rfl
    rcases List.mem_cons.mp hb with h | h
    · simp at h
    · exact hwf.frame_notMem hp j h
  have hhead : b ≠ .handle k := by
    rintro rfl
    rcases List.mem_cons.mp hb with h | h
    · exact hj (Node.handle.inj h).symm
    · simp at h
  rw [listState_next, if_neg hhead, if_neg hne]
  rfl

/-- What is walked from the block when it has been listed: the list it was put before, or, if there
was none, what its leftover `next` link leads to. -/
theorem ProperLists.walk_listed_iff (hwf : ProperLists s L A) (hp : s.block p ∈ A) :
    (∃ l, Walk (listState (freedState s p) p k k.isLt).links (.handle k) l) ↔
      L k ≠ [] ∨ ∃ l, Walk s.links (.frame p) l ∧ .handle k ∉ l := by
  have hlinks : (freedState s p).links = s.links := rfl
  have hother : ∀ b, b ≠ .handle k → b ≠ .frame p →
      ((listState (freedState s p) p k k.isLt).links b).next = (s.links b).next := by
    intro b h1 h2
    rw [listState_next, if_neg h1, if_neg h2, hlinks]
  have hself : ((listState (freedState s p) p k k.isLt).links (.frame p)).next =
      (s.links (.handle k)).next.or (s.links (.frame p)).next := by
    rw [listState_next, if_neg (by simp), if_pos rfl, hlinks]
  rcases hL : L k with _ | ⟨x, rest⟩
  · have hnone : (s.links (.handle k)).next = none := by
      rw [(hwf.lists.chain k).next_head, hL]; rfl
    rw [hnone, Option.none_or] at hself
    constructor
    · rintro ⟨l, hw⟩
      obtain ⟨l, rfl, hrest⟩ := hw.of_next listState_head
      have hnd := hw.nodup
      rw [List.nodup_cons, List.nodup_cons, List.mem_cons, not_or] at hnd
      refine Or.inr ⟨l, hrest.congr fun b hb ↦ ?_, hnd.1.2⟩
      rcases List.mem_cons.mp hb with rfl | hb
      · exact hself.symm
      · exact (hother b (by rintro rfl; exact hnd.1.2 hb)
          (by rintro rfl; exact hnd.2.1 hb)).symm
    · rintro (hne | ⟨l, hw, hl⟩)
      · exact absurd rfl hne
      · refine ⟨.frame p :: l, listState_head, hw.congr fun b hb ↦ ?_⟩
        rcases List.mem_cons.mp hb with rfl | hb
        · exact hself
        · exact hother b (by rintro rfl; exact hl hb)
            (by rintro rfl; exact (List.nodup_cons.mp hw.nodup).1 hb)
  · have hwalk := (hwf.lists.chain k).walk
    rw [hL, List.map_cons] at hwalk
    refine ⟨fun _ ↦ Or.inl (by simp), fun _ ↦ ⟨.frame p :: .frame x :: rest.map .frame,
      listState_head, ?_, hwalk.2.congr fun b hb ↦ ?_⟩⟩
    · rw [hself, hwalk.1]; rfl
    · have hmem : b ∈ (L k).map Node.frame := by rw [hL]; exact hb
      refine hother b (fun heq ↦ ?_) fun heq ↦ ?_
      · exact hwf.lists.head_notMem k k (heq ▸ hmem)
      · exact hwf.frame_notMem hp k (heq ▸ hmem)

/-- A free that lists its block once has found its neighbour in use. -/
theorem FreesOnce.neighbour_used (h : FreesOnce partner s p) :
    ∃ s', pmCombinePage partner (freedState s p) p = .ok (none, s') ∧
      ∀ j : ListIndex, ∃ l, Walk s'.links (.handle j) l := by
  obtain ⟨s', B, q, -, hC, j, -, hlists⟩ := h
  rcases hC.eq_nil_or_loops with ⟨-, -, hnone⟩ | hloop
  · refine ⟨s', hnone, fun j ↦ ?_⟩
    obtain ⟨l, hw, -⟩ := hlists j
    exact ⟨l, hw⟩
  · obtain ⟨i, hi⟩ := hloop.not_walk
    obtain ⟨l, hw, -⟩ := hlists i
    exact absurd hw (hi l)

/-- The first step of a free merges nothing if the neighbour's descriptor is mapped, is another one
and is not free. -/
theorem pmCombinePage_freed_none_iff {s' : PmState} (hk : (s.page p).order = k) :
    pmCombinePage partner (freedState s p) p = .ok (none, s') ↔
      s.present (partner (neighbourAddr (s.page p))) = true ∧
      partner (neighbourAddr (s.page p)) ≠ p ∧
      (s.page (partner (neighbourAddr (s.page p)))).free = false ∧
      s' = listState (freedState s p) p k k.isLt := by
  have hself : (freedState s p).page p = { s.page p with free := true } :=
    Function.update_self p _ s.page
  have hneighbour : neighbourAddr ((freedState s p).page p) = neighbourAddr (s.page p) := by
    rw [hself]; rfl
  have horder : ((freedState s p).page p).order = k := by rw [hself, ← hk]
  have hpresent : (freedState s p).present = s.present := rfl
  rw [pmCombinePage_none_iff, hneighbour, hpresent]
  simp only [horder, k.isLt, exists_true_left]
  rcases eq_or_ne (partner (neighbourAddr (s.page p))) p with heq | hne
  · have hfree : ((freedState s p).page p).free = true := by rw [hself]
    rw [heq]
    simp [hfree]
  · have hother : (freedState s p).page (partner (neighbourAddr (s.page p))) =
        s.page (partner (neighbourAddr (s.page p))) := Function.update_of_ne hne _ _
    rw [hother]
    simp only [ne_eq, hne, not_false_eq_true, true_and]

/-- A block that has been listed is walked to once. -/
theorem count_listed {l : List Node}
    (hw : Walk (listState s p k k.isLt).links (.handle k) l) : l.count (.frame p) = 1 := by
  obtain ⟨l, rfl, -⟩ := hw.of_next listState_head
  exact List.count_eq_one_of_mem (List.nodup_cons.mp hw.nodup).2 List.mem_cons_self

/-- **A free lists its block once exactly when it merges nothing**: when the neighbour's descriptor
is mapped and not free, and the block's leftover `next` link, if the list of its order is empty,
leads to an end. -/
theorem pmFreePages_once_iff (hwf : ProperLists s L A) (hp : s.block p ∈ A)
    (hk : (s.page p).order = k) : FreesOnce partner s p ↔
      s.present (partner (neighbourAddr (s.page p))) = true ∧
      partner (neighbourAddr (s.page p)) ≠ p ∧
      (s.page (partner (neighbourAddr (s.page p)))).free = false ∧
      (L k ≠ [] ∨ ∃ l, Walk s.links (.frame p) l ∧ .handle k ∉ l) := by
  constructor
  · intro h
    obtain ⟨s', hnone, hlists⟩ := h.neighbour_used
    obtain ⟨hpresent, hne, hfree, rfl⟩ := (pmCombinePage_freed_none_iff hk).mp hnone
    exact ⟨hpresent, hne, hfree, (hwf.walk_listed_iff hp).mp (hlists k)⟩
  · rintro ⟨hpresent, hne, hfree, hstale⟩
    have hC := Combines.done ((pmCombinePage_freed_none_iff hk).mpr ⟨hpresent, hne, hfree, rfl⟩)
    have horder : ((listState (freedState s p) p k k.isLt).page p).order = k :=
      (congrArg Pageframe.order (Function.update_self p _ s.page)).trans hk
    refine ⟨_, [], p, combineLoop_iff.mpr ⟨[], p, hC⟩, hC, k, horder, fun j ↦ ?_⟩
    rcases eq_or_ne j k with rfl | hj
    · obtain ⟨l, hw⟩ := (hwf.walk_listed_iff hp).mpr hstale
      exact ⟨l, hw, by rw [if_pos rfl, count_listed hw], by simp⟩
    · refine ⟨_, hwf.walk_of_ne hp hj, ?_, by simp⟩
      rw [if_neg hj, List.count_eq_zero]
      exact hwf.frame_notMem hp j

end Frees

/-! ### The frame at 4 MiB, and another one -/

/-- The frame at 4 MiB is allocated, the one at `a` is free, and no other descriptor is in use. -/
def takenFrame (a : ℕ) : PmState :=
  singleState ⟨0, Nat.succ_pos pageMaxOrder⟩ (pageSlot a) fun x ↦
    if x = pageSlot pageMaxSize then ⟨0, false, pageMaxSize⟩
    else if x = pageSlot a then ⟨0, true, a⟩ else Pageframe.zero

section Taken

variable {a : ℕ}

theorem takenFrame_page_taken :
    (takenFrame a).page (pageSlot pageMaxSize) = ⟨0, false, pageMaxSize⟩ := by
  rw [takenFrame]
  dsimp only [singleState]
  rw [if_pos rfl]

theorem freedState_takenFrame :
    (freedState (takenFrame a) (pageSlot pageMaxSize)).page (pageSlot pageMaxSize) =
      ⟨0, true, pageMaxSize⟩ := by
  rw [freedState, PmState.setPage_page, Function.update_self, takenFrame_page_taken]

theorem takenFrame_page_free (hne : pageSlot a ≠ pageSlot pageMaxSize) :
    (takenFrame a).page (pageSlot a) = ⟨0, true, a⟩ := by
  rw [takenFrame]
  dsimp only [singleState]
  rw [if_neg hne, if_pos rfl]

theorem properLists_takenFrame (hne : pageSlot a ≠ pageSlot pageMaxSize) (hal : archPageSize ∣ a)
    (hlow : pageMaxSize + archPageSize ≤ a) (hend : a + archPageSize ≤ 2 ^ 64) :
    ProperLists (takenFrame a) (singleLists 0 (pageSlot a)) {⟨pageMaxSize, 0⟩} := by
  have hfree := takenFrame_page_free hne
  have hwf : WellFormed (takenFrame a) (singleLists 0 (pageSlot a)) ∅ := by
    refine wellFormed_singleState ⟨?_, ?_, ?_, fun i hi ↦ ?_, fun i h0 hi ↦ ?_⟩ ?_
    · exact congrArg Pageframe.free hfree
    · rw [PmState.block, show (singleState _ _ _).page (pageSlot a) = _ from hfree]
      simpa [Block.Aligned, Block.size] using hal
    · rw [show (singleState _ _ _).page (pageSlot a) = _ from hfree]
      simpa using hend
    · rw [show (singleState _ _ _).page (pageSlot a) = _ from hfree, pow_zero] at hi
      obtain rfl : i = 0 := by omega
      rfl
    · rw [show (singleState _ _ _).page (pageSlot a) = _ from hfree, pow_zero] at hi
      omega
    · exact congrArg Pageframe.order hfree
  refine { hwf.properLists with taken := ?_, allocated := Set.pairwise_singleton _ _ }
  rw [listed_singleLists]
  rintro q rfl
  rw [Set.disjoint_left, PmState.block, hfree]
  rintro x hx ⟨b, rfl, hb⟩
  rw [Block.mem_span] at hx hb
  dsimp only at hx hb
  omega

end Taken

/-- The address behind the frame at 4 MiB. -/
theorem neighbourAddr_takenFrame (a : ℕ) :
    neighbourAddr ((takenFrame a).page (pageSlot pageMaxSize)) = pageMaxSize + archPageSize := by
  rw [takenFrame_page_taken]; decide

/-- The frame at 4 MiB is freed and looks for its buddy in the wrong place. -/
theorem pmCombinePage_never_buddy_takenFrame :
    ((takenFrame (pageMaxSize + archPageSize)).page (pageSlot pageMaxSize)).addr = pageMaxSize ∧
      ¬ CombinesBuddy castPage (freedState (takenFrame (pageMaxSize + archPageSize))
        (pageSlot pageMaxSize)) (pageSlot pageMaxSize) :=
  ⟨by rw [takenFrame_page_taken], pmCombinePage_never_buddy (by rw [takenFrame_page_taken]; decide)
    (by rw [takenFrame_page_taken]; decide)⟩

/-- **The buddy is free and of the same order, and is not merged with.** -/
theorem pmCombinePage_misses_buddy :
    ProperLists (takenFrame (pageMaxSize + archPageSize))
        (singleLists 0 (pageSlot (pageMaxSize + archPageSize))) {⟨pageMaxSize, 0⟩} ∧
      (takenFrame (pageMaxSize + archPageSize)).block (pageSlot pageMaxSize) = ⟨pageMaxSize, 0⟩ ∧
      buddyAddr ((takenFrame (pageMaxSize + archPageSize)).page (pageSlot pageMaxSize)) =
        pageMaxSize + archPageSize ∧
      (takenFrame (pageMaxSize + archPageSize)).page (pageSlot (pageMaxSize + archPageSize)) =
        ⟨0, true, pageMaxSize + archPageSize⟩ ∧
      ∃ s', pmCombinePage castPage (freedState (takenFrame (pageMaxSize + archPageSize))
        (pageSlot pageMaxSize)) (pageSlot pageMaxSize) = .ok (none, s') := by
  have hne : pageSlot (pageMaxSize + archPageSize) ≠ pageSlot pageMaxSize := by decide
  refine ⟨properLists_takenFrame hne (by decide) (by decide) (by decide), ?_, ?_,
    takenFrame_page_free hne, ?_⟩
  · rw [PmState.block, takenFrame_page_taken]
  · rw [takenFrame_page_taken]; decide
  · have hcast : castPage (neighbourAddr ⟨0, true, pageMaxSize⟩) =
        castPage (pageMaxSize + archPageSize) := by decide
    refine ⟨_, pmCombinePage_none_iff.mpr ⟨?_, ?_, by rw [freedState_takenFrame]; decide, rfl⟩⟩
    · rfl
    · rw [freedState_takenFrame, hcast, freedState, PmState.setPage_page,
        Function.update_of_ne (by decide), takenFrame]
      dsimp only [singleState]
      rw [if_neg (by decide), if_neg (by decide)]
      rfl

/-- With the frame at 8 MiB free, the one at 4 MiB is freed as it should be. -/
theorem pmFreePages_once_iff_apart :
    FreesOnce pageSlot (takenFrame (2 * pageMaxSize)) (pageSlot pageMaxSize) := by
  have hne : pageSlot (2 * pageMaxSize) ≠ pageSlot pageMaxSize := by decide
  refine (pmFreePages_once_iff (k := 0)
    (properLists_takenFrame hne (by decide) (by decide) (by decide))
    (by rw [PmState.block, takenFrame_page_taken]; rfl)
    (by rw [takenFrame_page_taken]; rfl)).mpr ⟨rfl, ?_, ?_, Or.inl (by simp [singleLists])⟩
  · rw [neighbourAddr_takenFrame]; decide
  · rw [neighbourAddr_takenFrame, takenFrame]
    dsimp only [singleState]
    rw [if_neg (by decide), if_neg (by decide)]
    rfl

/-- **A merge leaves the list in a loop**: the frame at 4 MiB is merged with the one behind it. -/
theorem pmFreePages_lists_twice :
    ProperLists (takenFrame (pageMaxSize + archPageSize))
        (singleLists 0 (pageSlot (pageMaxSize + archPageSize))) {⟨pageMaxSize, 0⟩} ∧
      (takenFrame (pageMaxSize + archPageSize)).block (pageSlot pageMaxSize) = ⟨pageMaxSize, 0⟩ ∧
      ¬ FreesOnce pageSlot (takenFrame (pageMaxSize + archPageSize)) (pageSlot pageMaxSize) := by
  have hne : pageSlot (pageMaxSize + archPageSize) ≠ pageSlot pageMaxSize := by decide
  refine ⟨properLists_takenFrame hne (by decide) (by decide) (by decide), ?_, fun h ↦ ?_⟩
  · rw [PmState.block, takenFrame_page_taken]
  · obtain ⟨s', hnone, -⟩ := h.neighbour_used
    obtain ⟨-, hused, -⟩ := pmCombinePage_none_iff.mp hnone
    have hcast : neighbourAddr ⟨0, true, pageMaxSize⟩ = pageMaxSize + archPageSize := by decide
    rw [freedState_takenFrame, hcast, freedState, PmState.setPage_page, Function.update_of_ne hne,
      takenFrame_page_free hne] at hused
    simp at hused

end CubikOS

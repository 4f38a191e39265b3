import CubikOS.Mm.Allocate

/-!
# Runs of the physical allocator

While the kernel boots, `PM_LoadZoneRange` hands one 4 MiB block after another to `write_pages`,
with calls of `PM_AllocatePages` in between, and nothing is ever freed.  A `Run` is any such
sequence, from a state with empty lists; it remembers the states it went through, the blocks it
inserted and the blocks it got back.

`write_pages` puts a block of order 10 onto list 9.  So a run does not stay well-formed: list 9
mixes blocks of two sizes, a block of order 10 that is cut more than once drops the first upper
half it makes off that list again, and the counter of list 9 runs ahead of it.  What survives is
`Sound`, and it is enough for memory never to be handed out twice (`run_returned`).  The orders
and counters of the ten other lists survive as well (`run_freelists`).
-/

set_option autoImplicit false

namespace CubikOS

open Intrusive Buddy

/-! ## Inserting a block -/

theorem pageMaxOrder_pred_lt : pageMaxOrder - 1 < pageMaxOrder + 1 := by decide

/-- The list `write_pages` appends to: `pf_freelist[PAGE_MAX_ORDER - 1]`. -/
def zoneList : ListIndex := ⟨pageMaxOrder - 1, pageMaxOrder_pred_lt⟩

/-- The 1024 descriptors from slot `pages` on are filled with zeros. -/
def ZeroFilled (s : PmState) (pages : ℕ) : Prop :=
  ∀ i, i < 1024 → s.page (pages + i) = Pageframe.zero ∧ s.links (.frame (pages + i)) = Link.null

theorem size_maxBlock (a : ℕ) : (Block.mk a pageMaxOrder).size archPageSize = pageMaxSize := by
  norm_num [Block.size]

theorem span_maxBlock (a : ℕ) :
    (Block.mk a pageMaxOrder).span archPageSize = Set.Ico a (a + pageMaxSize) := by
  rw [Block.span, size_maxBlock]

section Write

variable {s : PmState} {pages address : ℕ}

theorem writePagesLoop_links (n : ℕ) : (writePagesLoop pages address n s).links = s.links := by
  induction n with
  | zero => rfl
  | succ n ih => simpa [writePagesLoop] using ih

theorem writePagesLoop_count (n : ℕ) : (writePagesLoop pages address n s).count = s.count := by
  induction n with
  | zero => rfl
  | succ n ih => simpa [writePagesLoop] using ih

theorem writePagesLoop_page_of_lt {n i : ℕ} (hi : i < n) :
    (writePagesLoop pages address n s).page (pages + i) =
      { s.page (pages + i) with free := true, addr := (address + i * archPageSize) % 2 ^ 64 } := by
  have hout : ∀ n i, n ≤ i →
      (writePagesLoop pages address n s).page (pages + i) = s.page (pages + i) := by
    intro n
    induction n with
    | zero => intro i _; rfl
    | succ n ih =>
      intro i hi
      rw [writePagesLoop, PmState.setPage_page, Function.update_of_ne (by omega), ih i (by omega)]
  induction n with
  | zero => omega
  | succ n ih =>
    rw [writePagesLoop, PmState.setPage_page]
    rcases Nat.eq_or_lt_of_le (Nat.le_of_lt_succ hi) with rfl | hlt
    · rw [Function.update_self, hout i i (le_refl i)]
    · rw [Function.update_of_ne (by omega), ih hlt]

theorem writePagesLoop_page_of_notMem {n x : ℕ} (hx : ∀ i, i < n → x ≠ pages + i) :
    (writePagesLoop pages address n s).page x = s.page x := by
  induction n with
  | zero => rfl
  | succ n ih =>
    rw [writePagesLoop, PmState.setPage_page, Function.update_of_ne (hx n (by omega))]
    exact ih fun i hi ↦ hx i (by omega)

theorem listMaxBlock_page (x : ℕ) : (listMaxBlock s pages).page x =
    if x = pages then { s.page pages with order := pageMaxOrder } else s.page x := by
  simp only [listMaxBlock, PmState.setCount_page, PmState.setLinks_page, PmState.setPage_page,
    Function.update_apply]

theorem listMaxBlock_links : (listMaxBlock s pages).links =
    linkedListAppend s.links (some (.handle zoneList)) (some (.frame pages)) := rfl

theorem listMaxBlock_count (k : ListIndex) : (listMaxBlock s pages).count k =
    if k = zoneList then (s.count k + 1) % 2 ^ 32 else s.count k := by
  have hcount : (listMaxBlock s pages).count =
      Function.update s.count zoneList ((s.count zoneList + 1) % 2 ^ 32) := rfl
  rw [hcount, Function.update_apply]
  by_cases hk : k = zoneList
  · rw [if_pos hk, if_pos hk, hk]
  · rw [if_neg hk, if_neg hk]

theorem writePages_page_of_notMem {x : ℕ} (hx : ∀ i, i < 1024 → x ≠ pages + i) :
    (writePages s pages address).page x = s.page x := by
  rw [writePages, listMaxBlock_page, if_neg (by simpa using hx 0 (by omega))]
  exact writePagesLoop_page_of_notMem hx

/-- The descriptors of the block, as `write_pages` leaves them. -/
theorem writePages_page (hzero : ZeroFilled s pages) (hal : pageMaxSize ∣ address)
    (hlt : address < 2 ^ 64) {i : ℕ} (hi : i < 1024) :
    (writePages s pages address).page (pages + i) =
      ⟨if i = 0 then pageMaxOrder else 0, true, address + archPageSize * i⟩ := by
  have hno : (address + i * archPageSize) % 2 ^ 64 = address + archPageSize * i := by
    obtain ⟨c, rfl⟩ := hal
    rw [Nat.mod_eq_of_lt]
    · rw [Nat.mul_comm i]
    · dsimp only [pageMaxSize, archPageSize] at *; omega
  have hloop : (writePagesLoop pages address 1024 s).page (pages + i) = _ :=
    writePagesLoop_page_of_lt hi
  rw [hno, (hzero i hi).1] at hloop
  rw [writePages, listMaxBlock_page, hloop]
  rcases Nat.eq_zero_or_pos i with rfl | h0
  · rw [Nat.add_zero] at hloop ⊢
    rw [if_pos rfl, if_pos rfl, hloop]
  · rw [if_neg (by omega), if_neg (by omega)]; rfl

theorem writePages_links (hzero : ZeroFilled s pages) :
    (writePages s pages address).links = s.links.linkAfter (.handle zoneList) (.frame pages) := by
  have hnull := (hzero 0 (by omega)).2
  rw [Nat.add_zero] at hnull
  rw [writePages, listMaxBlock_links, writePagesLoop_links]
  exact linkedListAppend_eq (Or.inr (by rw [hnull]; rfl))

theorem writePages_count (k : ListIndex) : (writePages s pages address).count k =
    if k = zoneList then (s.count k + 1) % 2 ^ 32 else s.count k := by
  rw [writePages, listMaxBlock_count, writePagesLoop_count]

/-- Zero-filled descriptors belong to no block yet. -/
theorem Sound.notMem_zeroFilled {L : ListIndex → List ℕ} {T : Set ℕ} (hS : Sound s L T)
    (hzero : ZeroFilled s pages) {q i j : ℕ} (hq : q ∈ Listed L)
    (hi : i < 2 ^ (s.page q).order) (hj : j < 1024) : q + i ≠ pages + j := by
  intro heq
  obtain ⟨hpage, hlink⟩ := hzero j hj
  rcases Nat.eq_zero_or_pos i with rfl | hpos
  · -- the first descriptor of a listed block has a `prev` link
    rw [Nat.add_zero] at heq
    rw [← heq] at hlink
    exact hS.lists.notMem_of_null hlink hq
  · -- the others have an address
    have haddr := (hS.blocks.block q hq).addr i hi
    rw [heq, hpage, Pageframe.zero] at haddr
    dsimp only [archPageSize] at haddr
    omega

/-- **Inserting a block** keeps the state sound, if the block is new and aligned and the
descriptors are zero-filled. -/
theorem Sound.writePages {L : ListIndex → List ℕ} {T : Set ℕ} (hS : Sound s L T)
    (hzero : ZeroFilled s pages) (hal : pageMaxSize ∣ address) (hlt : address < 2 ^ 64)
    (hnew : ∀ q ∈ Listed L, Disjoint (Set.Ico address (address + pageMaxSize))
      ((s.block q).span archPageSize))
    (hT : Disjoint (Set.Ico address (address + pageMaxSize)) T) :
    Sound (writePages s pages address)
      (Function.update L zoneList (pages :: L zoneList)) T := by
  have hnull : ∀ i, i < 1024 → s.links (.frame (pages + i)) = Link.null :=
    fun i hi ↦ (hzero i hi).2
  have hnotMem : pages ∉ Listed L :=
    hS.lists.notMem_of_null (by simpa using hnull 0 (by omega))
  have hpage0 : (CubikOS.writePages s pages address).page pages = ⟨10, true, address⟩ := by
    simpa using writePages_page hzero hal hlt (show 0 < 1024 by omega)
  have hold : ∀ q ∈ Listed L, ∀ i, i < 2 ^ (s.page q).order →
      (CubikOS.writePages s pages address).page (q + i) = s.page (q + i) := by
    intro q hq i hi
    exact writePages_page_of_notMem fun j hj ↦ hS.notMem_zeroFilled hzero hq hi hj
  have hold0 : ∀ q ∈ Listed L, (CubikOS.writePages s pages address).page q = s.page q := by
    intro q hq
    simpa using hold q hq 0 (Nat.two_pow_pos _)
  -- the append rewrites no link of a descriptor that had none, except that of the block itself
  have hlinks : ∀ x, s.links (.frame x) = Link.null → x ≠ pages →
      (CubikOS.writePages s pages address).links (.frame x) = Link.null := by
    intro x hx hxp
    have hfirst : (s.links (.handle zoneList)).next ≠ some (.frame x) := by
      rw [(hS.lists.chain zoneList).next_head]
      intro h1
      obtain ⟨y, hy, hyx⟩ := List.mem_map.mp (List.mem_of_head? h1)
      rw [Node.frame.injEq] at hyx
      exact hS.lists.notMem_of_null hx ⟨zoneList, hyx ▸ hy⟩
    rw [writePages_links hzero]
    refine Link.ext ?_ ?_
    · rw [Heap.linkAfter_prev, if_neg hfirst, if_neg (by simpa using hxp), hx]
    · rw [Heap.linkAfter_next, if_neg (by simp), if_neg (by simpa using hxp), hx]
  have hblocks : Blocks (CubikOS.writePages s pages address) (Listed L) T := by
    refine hS.blocks.congr (fun q hq i hi ↦ by rw [hold q hq i hi])
      (fun q hq ↦ by rw [hold0 q hq])
      (fun q hq ↦ by rw [hold0 q hq]; exact (hS.blocks.block q hq).free) ?_
    intro q hq i h0 hi hx
    refine hlinks _ hx ?_
    simpa using hS.notMem_zeroFilled hzero hq hi (show 0 < 1024 by omega)
  have hspan : ((CubikOS.writePages s pages address).block pages).span archPageSize =
      Set.Ico address (address + pageMaxSize) := by
    rw [PmState.block, hpage0]; exact span_maxBlock address
  have hfree : FreeBlock (CubikOS.writePages s pages address) pages := by
    refine ⟨by rw [hpage0], ?_, ?_, ?_, ?_⟩
    · rw [PmState.block, hpage0, Block.Aligned, size_maxBlock]; exact hal
    · rw [hpage0]
      obtain ⟨c, rfl⟩ := hal
      dsimp only [pageMaxSize, archPageSize] at *; omega
    · rw [hpage0]
      intro i hi
      rw [writePages_page hzero hal hlt (by simpa using hi)]
    · rw [hpage0]
      intro i h0 hi
      exact hlinks _ (hnull i (by simpa using hi)) (by omega)
  have hsub : Listed (Function.update L zoneList (pages :: L zoneList)) ⊆
      insert pages (Listed L) := by
    rintro q ⟨k, hk⟩
    rcases eq_or_ne k zoneList with rfl | hkz
    · rw [Function.update_self] at hk
      rcases List.mem_cons.mp hk with rfl | hk
      · exact Set.mem_insert _ _
      · exact Set.mem_insert_of_mem _ ⟨_, hk⟩
    · rw [Function.update_of_ne hkz] at hk
      exact Set.mem_insert_of_mem _ ⟨_, hk⟩
  refine ⟨?_, ?_, ?_⟩
  · have h1 := hS.lists.linkHead zoneList (x := .frame pages)
      (fun k hk ↦ hnotMem ⟨k, by simpa using hk⟩) (by simp)
    rw [← List.map_cons, map_update] at h1
    rwa [FreeLists, writePages_links hzero]
  · refine (hblocks.insert_block hfree (fun q hq ↦ ?_) ?_).mono hsub
    · rw [hspan, PmState.block, hold0 q hq]; exact hnew q hq
    · rw [hspan]; exact hT
  · intro k q hq
    rcases eq_or_ne k zoneList with rfl | hkz
    · rw [Function.update_self] at hq
      rcases List.mem_cons.mp hq with rfl | hq
      · rw [hpage0]; exact ⟨show 9 ≤ 10 by decide, le_refl _⟩
      · rw [hold0 q ⟨_, hq⟩]; exact hS.order _ q hq
    · rw [Function.update_of_ne hkz] at hq
      rw [hold0 q ⟨_, hq⟩]; exact hS.order _ q hq

end Write

/-! ## Runs -/

/-- What a call returned: the order that was asked for, and the block the descriptor stood for
at that moment. -/
structure Returned where
  /-- The argument of the call. -/
  requested : ℕ
  /-- Address and order of the page at return. -/
  block : Block

/-- The runs from `s₀`, in which `write_pages` is called on new 4 MiB blocks and `PM_AllocatePages`
for any order: the states reached, the addresses of the blocks inserted and the blocks returned,
each with the latest first.  A call that faults ends a run. -/
inductive Run (s₀ : PmState) : List PmState → List ℕ → List Returned → Prop where
  | boot : Run s₀ [s₀] [] []
  | insert {s : PmState} {ss : List PmState} {B : List ℕ} {R : List Returned}
      {pages address : ℕ} (hrun : Run s₀ (s :: ss) B R) (hzero : ZeroFilled s pages)
      (hal : pageMaxSize ∣ address) (hlt : address < 2 ^ 64) (hnew : address ∉ B) :
      Run s₀ (writePages s pages address :: s :: ss) (address :: B) R
  | alloc {s s' : PmState} {ss : List PmState} {B : List ℕ} {R : List Returned}
      {order p : ℕ} (hrun : Run s₀ (s :: ss) B R)
      (hcall : pmAllocatePages s order = .ok (some p, s')) :
      Run s₀ (s' :: s :: ss) B (⟨order, s'.block p⟩ :: R)
  | fail {s s' : PmState} {ss : List PmState} {B : List ℕ} {R : List Returned}
      {order : ℕ} (hrun : Run s₀ (s :: ss) B R)
      (hcall : pmAllocatePages s order = .ok (none, s')) : Run s₀ (s' :: s :: ss) B R

/-- The addresses handed out so far. -/
def handedOut (R : List Returned) : Set ℕ := {x | ∃ r ∈ R, x ∈ r.block.span archPageSize}

/-- `S` lies inside one of the inserted blocks. -/
def InsideZone (B : List ℕ) (S : Set ℕ) : Prop :=
  ∃ b ∈ B, pageMaxSize ∣ b ∧ S ⊆ Set.Ico b (b + pageMaxSize)

theorem InsideZone.cons {B : List ℕ} {S : Set ℕ} (h : InsideZone B S) (b : ℕ) :
    InsideZone (b :: B) S := by
  obtain ⟨c, hc, hS⟩ := h
  exact ⟨c, List.mem_cons_of_mem _ hc, hS⟩

theorem InsideZone.mono {B : List ℕ} {S S' : Set ℕ} (h : InsideZone B S) (hS : S' ⊆ S) :
    InsideZone B S' := by
  obtain ⟨c, hc, hdvd, hc'⟩ := h
  exact ⟨c, hc, hdvd, hS.trans hc'⟩

/-- What lies inside the blocks inserted so far does not meet a new one. -/
theorem InsideZone.disjoint {B : List ℕ} {S : Set ℕ} (h : InsideZone B S) {address : ℕ}
    (hal : pageMaxSize ∣ address) (hnew : address ∉ B) :
    Disjoint (Set.Ico address (address + pageMaxSize)) S := by
  obtain ⟨b, hb, ⟨c, rfl⟩, hS⟩ := h
  obtain ⟨a, rfl⟩ := hal
  have hne : pageMaxSize * a ≠ pageMaxSize * c := fun heq ↦ hnew (heq ▸ hb)
  refine Disjoint.mono_right hS (Set.disjoint_left.mpr fun x hx hx' ↦ ?_)
  have h1 := Set.mem_Ico.mp hx
  have h2 := Set.mem_Ico.mp hx'
  dsimp only [pageMaxSize] at *
  omega

/-- The invariant of a run: the state is sound, what was handed out being taken, and everything
lies inside the blocks inserted.  Off list 9, orders and counters are what they should be. -/
structure RunInv (s : PmState) (L : ListIndex → List ℕ) (B : List ℕ) (R : List Returned) :
    Prop where
  /-- The free lists are sound, what was handed out being taken. -/
  sound : Sound s L (handedOut R)
  /-- The free blocks come from the zone. -/
  listed : ∀ q ∈ Listed L, InsideZone B ((s.block q).span archPageSize)
  /-- So do the blocks handed out, which are aligned and large enough. -/
  returned : ∀ r ∈ R, InsideZone B (r.block.span archPageSize) ∧
    r.block.Aligned archPageSize ∧ r.requested ≤ r.block.order
  /-- No two of those overlap. -/
  apart : R.Pairwise fun r r' ↦
    Disjoint (r.block.span archPageSize) (r'.block.span archPageSize)
  /-- Off list 9, blocks have the order of their list. -/
  order : ∀ k, k ≠ zoneList → ∀ p ∈ L k, (s.page p).order = k
  /-- Off list 9, counters are lengths. -/
  count : ∀ k, k ≠ zoneList → s.count k = (L k).length

theorem RunInv.boot {s : PmState} (hboot : s.Boot) : RunInv s (fun _ ↦ []) [] [] := by
  have hnone : Listed (fun _ ↦ []) = ∅ := by ext q; simp [Listed]
  refine ⟨⟨⟨fun k ↦ ?_, by simp, by simp, by simp, ?_⟩, ?_, by simp⟩, ?_, by simp, by simp,
    by simp, fun k _ ↦ (hboot k).2⟩
  · rw [List.map_nil, Chain, (hboot k).1]; rfl
  · intro i j hij; simpa using hij
  · rw [hnone]; exact ⟨by simp, by simp, by simp⟩
  · rw [hnone]; simp

theorem RunInv.insert {s : PmState} {L : ListIndex → List ℕ} {B : List ℕ} {R : List Returned}
    {pages address : ℕ} (hI : RunInv s L B R) (hzero : ZeroFilled s pages)
    (hal : pageMaxSize ∣ address) (hlt : address < 2 ^ 64) (hnew : address ∉ B) :
    RunInv (writePages s pages address) (Function.update L zoneList (pages :: L zoneList))
      (address :: B) R := by
  have hsound := hI.sound.writePages hzero hal hlt
    (fun q hq ↦ (hI.listed q hq).disjoint hal hnew) (by
      refine Set.disjoint_left.mpr ?_
      rintro x hx ⟨r, hr, hxr⟩
      exact Set.disjoint_left.mp ((hI.returned r hr).1.disjoint hal hnew) hx hxr)
  have hpage0 : (writePages s pages address).page pages = ⟨10, true, address⟩ := by
    simpa using writePages_page hzero hal hlt (show 0 < 1024 by omega)
  have hold : ∀ q ∈ Listed L, (writePages s pages address).page q = s.page q := by
    intro q hq
    refine writePages_page_of_notMem fun j hj ↦ ?_
    simpa using hI.sound.notMem_zeroFilled hzero hq (Nat.two_pow_pos _) hj
  refine ⟨hsound, ?_, fun r hr ↦ ?_, hI.apart, fun k hk p hp ↦ ?_, fun k hk ↦ ?_⟩
  · rintro q ⟨k, hq⟩
    have hcase : q = pages ∨ q ∈ Listed L := by
      rcases eq_or_ne k zoneList with rfl | hkz
      · rw [Function.update_self] at hq
        exact (List.mem_cons.mp hq).imp_right fun h ↦ ⟨_, h⟩
      · rw [Function.update_of_ne hkz] at hq
        exact Or.inr ⟨_, hq⟩
    rcases hcase with rfl | hq'
    · refine ⟨address, by simp, hal, ?_⟩
      rw [PmState.block, hpage0, span_maxBlock]
    · rw [PmState.block, hold q hq']
      exact (hI.listed q hq').cons address
  · obtain ⟨h1, h2⟩ := hI.returned r hr
    exact ⟨h1.cons address, h2⟩
  · rw [Function.update_of_ne hk] at hp
    rw [hold p ⟨k, hp⟩]
    exact hI.order k hk p hp
  · rw [Function.update_of_ne hk, writePages_count, if_neg hk]
    exact hI.count k hk

/-- A block on list 9 has order 9 or 10; on any other list it has the order of the list. -/
theorem RunInv.order_le {s : PmState} {L : ListIndex → List ℕ} {B : List ℕ} {R : List Returned}
    (hI : RunInv s L B R) {m : ListIndex} {p : ℕ} (hp : p ∈ L m) : (s.page p).order ≤ m + 1 := by
  by_cases hm : m = zoneList
  · subst hm
    exact (hI.sound.order _ p hp).2
  · rw [hI.order m hm p hp]; omega

theorem RunInv.alloc {s s' : PmState} {L : ListIndex → List ℕ} {B : List ℕ} {R : List Returned}
    {order p : ℕ} (hI : RunInv s L B R) (hcall : pmAllocatePages s order = .ok (some p, s')) :
    ∃ L', RunInv s' L' B (⟨order, s'.block p⟩ :: R) := by
  obtain ⟨m, rest, L', hle, -, hfirst, hT, hS⟩ := pmAllocatePages_some hI.sound hcall
  obtain ⟨ho1, ho2⟩ := hI.sound.order m p (by simp [hT.pop])
  have ho3 := hI.order_le (show p ∈ L m by simp [hT.pop])
  have hinside := (hI.listed p hT.listed).mono hT.span_self
  have hfree := hI.sound.blocks.block p hT.listed
  -- an upper half that goes to another list goes to one the search found empty
  have hlow : ∀ k : ListIndex, k ≠ m → (s.page p).order - (m - order) ≤ k →
      k < (s.page p).order → s.count k = 0 := by
    intro k hk h1 h2
    have hkm : (k : ℕ) ≠ m := fun h ↦ hk (Fin.ext h)
    exact hfirst k (by omega) (Fin.lt_def.mpr (by omega))
  refine ⟨L', ?_, ?_, ?_, ?_, fun k hk q hq ↦ ?_, fun k hk ↦ ?_⟩
  · have hset : handedOut (⟨order, s'.block p⟩ :: R) =
        handedOut R ∪ (s'.block p).span archPageSize := by
      ext x
      simp only [handedOut, List.mem_cons, Set.mem_union, Set.mem_ofPred_eq]
      constructor
      · rintro ⟨r, rfl | hr, hx⟩
        · exact Or.inr hx
        · exact Or.inl ⟨r, hr, hx⟩
      · rintro (⟨r, hr, hx⟩ | hx)
        · exact ⟨r, Or.inr hr, hx⟩
        · exact ⟨_, Or.inl rfl, hx⟩
    rw [hset]; exact hS
  · intro q hq
    obtain ⟨r, hr, hsub⟩ := hT.span_listed hI.sound hq
    exact (hI.listed r hr).mono hsub
  · intro r hr
    rcases List.mem_cons.mp hr with rfl | hr
    · refine ⟨hinside, ?_, ?_⟩
      · rw [hT.block_self]
        exact (Nat.mul_dvd_mul_left _ (Nat.pow_dvd_pow 2 (Nat.sub_le _ _))).trans hfree.aligned
      · rw [hT.block_self]; dsimp only; omega
    · exact hI.returned r hr
  · refine List.pairwise_cons.mpr ⟨fun r hr ↦ ?_, hI.apart⟩
    have hd := (hI.sound.blocks.taken p hT.listed).mono_left hT.span_self
    exact hd.mono_right (show r.block.span archPageSize ⊆ handedOut R from
      fun _ hx ↦ ⟨r, hr, hx⟩)
  · rcases hT.mem k q hq with ⟨hq', hqp⟩ | ⟨rfl, h1, h2⟩
    · rw [hT.page_other hI.sound ⟨k, hq'⟩ hqp]
      exact hI.order k hk q hq'
    · rw [hT.page_new _ h1 h2]
  · rcases eq_or_ne k m with rfl | hkm
    · have ho : (s.page p).order = k := hI.order k hk p (by simp [hT.pop])
      have hself : ¬ ((s.page p).order - (k - order) ≤ k ∧ k < (s.page p).order) := by omega
      rw [hT.count_self hself, hT.list_self hself, hI.count k hk, hT.pop]
      simp
    · rw [hT.count_of_ne k hkm, hT.list_of_ne k hkm]
      split
      · rename_i hc
        have h0 := hlow k hkm hc.1 hc.2
        rw [List.length_cons, ← hI.count k hk, h0]; rfl
      · exact hI.count k hk

/-- **The invariant holds in every state of a run.** -/
theorem Run.inv {s₀ s : PmState} {ss : List PmState} {B : List ℕ} {R : List Returned}
    (hboot : s₀.Boot) (hrun : Run s₀ (s :: ss) B R) : ∃ L, RunInv s L B R := by
  generalize hstates : s :: ss = states at hrun
  induction hrun generalizing s ss with
  | boot =>
    rw [List.cons.injEq] at hstates
    obtain ⟨rfl, -⟩ := hstates
    exact ⟨_, RunInv.boot hboot⟩
  | insert _ hzero hal hlt hnew ih =>
    rw [List.cons.injEq] at hstates
    obtain ⟨rfl, -⟩ := hstates
    obtain ⟨L, hI⟩ := ih rfl
    exact ⟨_, hI.insert hzero hal hlt hnew⟩
  | alloc _ hcall ih =>
    rw [List.cons.injEq] at hstates
    obtain ⟨rfl, -⟩ := hstates
    obtain ⟨L, hI⟩ := ih rfl
    exact hI.alloc hcall
  | fail _ hcall ih =>
    rw [List.cons.injEq] at hstates
    obtain ⟨rfl, -⟩ := hstates
    obtain ⟨L, hI⟩ := ih rfl
    rw [pmAllocatePages_none hcall]
    exact ⟨L, hI⟩

theorem Run.ne_nil {s₀ : PmState} {ss : List PmState} {B : List ℕ} {R : List Returned}
    (hrun : Run s₀ ss B R) : ∃ s ss', ss = s :: ss' := by
  cases hrun <;> exact ⟨_, _, rfl⟩

/-- **No block is handed out twice.**  In every run from empty lists, the blocks returned so far
are pairwise disjoint; each lies inside one inserted block, is aligned to its own size and is no
smaller than was asked for. -/
theorem run_returned {s₀ : PmState} (hboot : s₀.Boot) {ss : List PmState} {B : List ℕ}
    {R : List Returned} (hrun : Run s₀ ss B R) :
    (R.Pairwise fun r r' ↦
      Disjoint (r.block.span archPageSize) (r'.block.span archPageSize)) ∧
    ∀ r ∈ R, (∃ b ∈ B, r.block.span archPageSize ⊆ Set.Ico b (b + pageMaxSize)) ∧
      r.block.Aligned archPageSize ∧ r.requested ≤ r.block.order := by
  obtain ⟨s, ss', rfl⟩ := hrun.ne_nil
  obtain ⟨L, hI⟩ := hrun.inv hboot
  refine ⟨hI.apart, fun r hr ↦ ?_⟩
  obtain ⟨⟨b, hb, -, hsub⟩, hal, hle⟩ := hI.returned r hr
  exact ⟨⟨b, hb, hsub⟩, hal, hle⟩

/-! ### A short run -/

/-- A state the kernel can boot in: everything is zero. -/
def zeroState : PmState where
  links _ := Link.null
  count _ := 0
  page _ := Pageframe.zero
  present _ := true

theorem zeroState_boot : zeroState.Boot := fun _ ↦ ⟨rfl, rfl⟩

theorem zeroState_zeroFilled (pages : ℕ) : ZeroFilled zeroState pages := fun _ _ ↦ ⟨rfl, rfl⟩

/-- One block inserted into the empty allocator is the first one list 9 has to offer.  On each list
below list 9 there is an upper half of it afterwards, if the order of the list is above the one
asked for. -/
theorem alloc_after_insert (pages : ℕ) {order : ℕ} (horder : order ≤ zoneList) : ∃ s L T,
    pmAllocatePages (writePages zeroState pages pageMaxSize) order = .ok (some pages, s) ∧
    Sound s L T ∧ ∀ k : ListIndex, k < zoneList →
      s.count k = (if order < k then 1 else 0) ∧
      L k = (if order < k then [pages + 2 ^ (k : ℕ)] else []) ∧
      (order < k → (s.page (pages + 2 ^ (k : ℕ))).order = k) := by
  have hI := (RunInv.boot zeroState_boot).insert (zeroState_zeroFilled pages)
    (dvd_refl pageMaxSize) (by decide) (by simp)
  have hcount : ∀ k : ListIndex, (writePages zeroState pages pageMaxSize).count k =
      if k = zoneList then 1 else 0 := fun k ↦ by
    rw [writePages_count]
    rfl
  have hsel : selectList (writePages zeroState pages pageMaxSize) (pageMaxOrder + 1) order =
      some zoneList := by
    refine selectList_of_first horder (Nat.lt_add_left _ (by decide)) ?_ fun j _ hj ↦ ?_
    · rw [hcount, if_pos rfl]; decide
    · rw [hcount, if_neg (Fin.ne_of_lt hj)]
  have hpage : ((writePages zeroState pages pageMaxSize).page pages).order = 10 := by
    have hpage := writePages_page (zeroState_zeroFilled pages) (dvd_refl pageMaxSize) (by decide)
      (show 0 < 1024 by omega)
    rw [Nat.add_zero] at hpage
    rw [hpage, if_pos rfl]
  have hlist : Function.update (fun _ ↦ []) zoneList [pages] zoneList = pages :: [] :=
    Function.update_self _ _ _
  obtain ⟨s, L, hrun, hT, hS⟩ :=
    pmAllocatePages_eq hI.sound (horder.trans (by decide)) hsel hlist
  refine ⟨s, L, _, hrun, hS, fun k hk ↦ ?_⟩
  have hne := Fin.ne_of_lt hk
  have hiff : (10 - (zoneList - order) ≤ (k : ℕ) ∧ (k : ℕ) < 10) ↔ order < k := by
    rw [Fin.lt_def] at hk
    dsimp only [zoneList, pageMaxOrder] at hk horder ⊢
    omega
  refine ⟨?_, ?_, fun h ↦ ?_⟩
  · rw [hT.count_of_ne k hne, hpage, hcount, if_neg hne]
    exact if_congr hiff rfl rfl
  · rw [hT.list_of_ne k hne, hpage, Function.update_of_ne hne]
    exact if_congr hiff rfl rfl
  · obtain ⟨h1, h2⟩ := hiff.mpr h
    rw [hT.page_new k (hpage ▸ h1) (hpage ▸ h2)]

/-- The run that inserts the 4 MiB at 4 MiB and asks for 512 KiB and 1 MiB of it. -/
theorem run_returned_after_insert : ∃ ss R, Run zeroState ss [pageMaxSize] R ∧ R.length = 2 ∧
    (R.Pairwise fun r r' ↦
      Disjoint (r.block.span archPageSize) (r'.block.span archPageSize)) ∧
    ∀ r ∈ R, (∃ b ∈ [pageMaxSize], r.block.span archPageSize ⊆ Set.Ico b (b + pageMaxSize)) ∧
      r.block.Aligned archPageSize ∧ r.requested ≤ r.block.order := by
  obtain ⟨s, L, T, hcall, hS, hleft⟩ := alloc_after_insert 0 (show (7 : ℕ) ≤ zoneList by decide)
  obtain ⟨hcount, hlist, -⟩ := hleft 8 (by decide)
  have hsel : selectList s (pageMaxOrder + 1) 8 = some 8 := by
    refine selectList_of_first (by decide) (by decide) ?_ fun j h1 h2 ↦
      absurd (Fin.lt_def.mp h2) (Nat.not_lt.mpr h1)
    rw [hcount]
    decide
  obtain ⟨s', -, hcall', -, -⟩ := pmAllocatePages_eq hS (by decide) hsel hlist
  have hrun := ((Run.boot.insert (zeroState_zeroFilled 0) (dvd_refl pageMaxSize) (by decide)
    (by simp)).alloc hcall).alloc hcall'
  exact ⟨_, _, hrun, rfl, run_returned zeroState_boot hrun⟩

/-! ## What becomes of the lists -/

/-- List `k` is as it should be: following `next` from its handle gives a doubly linked list that
ends at null, as long as its counter says, of free blocks of order `k`. -/
def ListOk (s : PmState) (k : ListIndex) : Prop :=
  ∃ l : List ℕ, Chain s.links (.handle k) (l.map Node.frame) ∧ l.length = s.count k ∧
    ∀ p ∈ l, (s.page p).order = k ∧ (s.page p).free = true

theorem RunInv.listOk {s : PmState} {L : ListIndex → List ℕ} {B : List ℕ} {R : List Returned}
    (hI : RunInv s L B R) {k : ListIndex} (hk : k ≠ zoneList) : ListOk s k :=
  ⟨L k, hI.sound.lists.chain k, (hI.count k hk).symm, fun p hp ↦
    ⟨hI.order k hk p hp, (hI.sound.blocks.block p ⟨k, hp⟩).free⟩⟩

/-- Right after an insertion list 9 starts with a block of order 10. -/
theorem not_listOk_writePages {s : PmState} {pages address : ℕ} (hzero : ZeroFilled s pages)
    (hal : pageMaxSize ∣ address) (hlt : address < 2 ^ 64) :
    ¬ ListOk (writePages s pages address) zoneList := by
  rintro ⟨l, hchain, -, hl⟩
  have hnext := hchain.next_head
  rw [writePages_links hzero, Heap.linkAfter_next, if_pos rfl] at hnext
  obtain ⟨p, hp, hpp⟩ := List.mem_map.mp (List.mem_of_head? hnext.symm)
  rw [Node.frame.injEq] at hpp
  subst hpp
  have hpage : (writePages s p address).page p = ⟨10, true, address⟩ := by
    simpa using writePages_page hzero hal hlt (show 0 < 1024 by omega)
  have ho := (hl p hp).1
  rw [hpage] at ho
  exact absurd (show 10 = 9 from ho) (by decide)

theorem Run.listOk {s₀ : PmState} (hboot : s₀.Boot) {ss : List PmState} {B : List ℕ}
    {R : List Returned} (hrun : Run s₀ ss B R) {k : ListIndex} (hk : k ≠ zoneList) :
    ∀ s ∈ ss, ListOk s k := by
  induction hrun with
  | boot =>
    intro s hs
    rw [List.mem_singleton.mp hs]
    exact (RunInv.boot hboot).listOk hk
  | insert hrun hzero hal hlt hnew ih =>
    intro s hs
    rcases List.mem_cons.mp hs with rfl | hs
    · obtain ⟨L, hI⟩ := (hrun.insert hzero hal hlt hnew).inv hboot
      exact hI.listOk hk
    · exact ih s hs
  | alloc hrun hcall ih =>
    intro s hs
    rcases List.mem_cons.mp hs with rfl | hs
    · obtain ⟨L, hI⟩ := (hrun.alloc hcall).inv hboot
      exact hI.listOk hk
    · exact ih s hs
  | fail hrun hcall ih =>
    intro s hs
    rcases List.mem_cons.mp hs with rfl | hs
    · obtain ⟨L, hI⟩ := (hrun.fail hcall).inv hboot
      exact hI.listOk hk
    · exact ih s hs

/-- Without an insertion nothing is ever on a list. -/
theorem Run.eq_boot {s₀ : PmState} (hboot : s₀.Boot) {ss : List PmState} {B : List ℕ}
    {R : List Returned} (hrun : Run s₀ ss B R) (hB : B = []) : ∀ s ∈ ss, s = s₀ := by
  induction hrun with
  | boot => intro s hs; exact List.mem_singleton.mp hs
  | insert => simp at hB
  | @alloc s s' ss B R order p hrun hcall ih =>
    obtain rfl : s = s₀ := ih hB s (by simp)
    obtain ⟨m, -, -, -, hcount, -⟩ := pmAllocatePages_some (RunInv.boot hboot).sound hcall
    exact absurd (hboot m).2 hcount
  | fail hrun hcall ih =>
    intro s hs
    rcases List.mem_cons.mp hs with rfl | hs
    · rw [pmAllocatePages_none hcall]; exact ih hB _ (by simp)
    · exact ih hB s hs

theorem Run.not_listOk {s₀ : PmState} {ss : List PmState} {B : List ℕ} {R : List Returned}
    (hrun : Run s₀ ss B R) (hB : B ≠ []) : ∃ s ∈ ss, ¬ ListOk s zoneList := by
  induction hrun with
  | boot => exact absurd rfl hB
  | insert hrun hzero hal hlt hnew ih =>
    exact ⟨_, by simp, not_listOk_writePages hzero hal hlt⟩
  | alloc hrun hcall ih =>
    obtain ⟨s, hs, hbad⟩ := ih hB
    exact ⟨s, List.mem_cons_of_mem _ hs, hbad⟩
  | fail hrun hcall ih =>
    obtain ⟨s, hs, hbad⟩ := ih hB
    exact ⟨s, List.mem_cons_of_mem _ hs, hbad⟩

/-- **Which lists stay as they should be.**  The lists other than list 9 do in every state of
every run.  All of them do exactly in the runs that never insert a block. -/
theorem run_freelists {s₀ : PmState} (hboot : s₀.Boot) {ss : List PmState} {B : List ℕ}
    {R : List Returned} (hrun : Run s₀ ss B R) :
    ((∀ s ∈ ss, ∀ k, ListOk s k) ↔ B = []) ∧
      ∀ k, k ≠ zoneList → ∀ s ∈ ss, ListOk s k := by
  refine ⟨⟨fun hok ↦ ?_, fun hB s hs k ↦ ?_⟩, fun k hk ↦ hrun.listOk hboot hk⟩
  · by_contra hB
    obtain ⟨s, hs, hbad⟩ := hrun.not_listOk hB
    exact hbad (hok s hs zoneList)
  · rw [hrun.eq_boot hboot hB s hs]
    refine ⟨[], ?_, (hboot k).2.symm, by simp⟩
    rw [List.map_nil, Chain, (hboot k).1]; rfl

/-- A run that never inserts a block: asking for one returns `NULL`. -/
theorem run_freelists_nothing_inserted :
    Run zeroState [zeroState, zeroState] [] [] ∧
      ∀ s ∈ [zeroState, zeroState], ∀ k, ListOk s k := by
  have hrun : Run zeroState [zeroState, zeroState] [] [] :=
    Run.boot.fail (show pmAllocatePages zeroState 0 = .ok (none, zeroState) from rfl)
  exact ⟨hrun, (run_freelists zeroState_boot hrun).1.mpr rfl⟩

/-- **The first insertion breaks list 9**: the block is of order 10. -/
theorem run_freelists_first_insert :
    (∃ R, Run zeroState [writePages zeroState 0 pageMaxSize, zeroState] [pageMaxSize] R) ∧
      ¬ ListOk (writePages zeroState 0 pageMaxSize) zoneList :=
  ⟨⟨[], Run.boot.insert (zeroState_zeroFilled 0) (dvd_refl _) (by decide) (by simp)⟩,
    not_listOk_writePages (zeroState_zeroFilled 0) (dvd_refl _) (by decide)⟩

end CubikOS

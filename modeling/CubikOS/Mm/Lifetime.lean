import CubikOS.Mm.Free
import CubikOS.Mm.Zone

/-!
# What a loaded zone yields

`write_pages` makes a block of order `PAGE_MAX_ORDER` and puts it onto the list one below.  The
block is still handed out once and no frame of it twice, but not all of it is.  This file follows
the runs in which the requests are for at most 128 frames, as nearly all of the kernel's are.

* `ZoneInv` is the invariant of such runs: list 9 has only blocks as they were inserted, its
  counter is never counted down, and everything else, free or handed out, lies in the lower 2 MiB
  of its block.
* `run_lower_half`: no frame of the upper 2 MiB of an inserted block is ever handed out.
* `run_served`: with requests of one order only, how many of them are served, and that the one
  after those faults.
-/

set_option autoImplicit false

namespace CubikOS

open Intrusive Buddy

/-! ## Where the first cut goes -/

/-- The links spell out the lists: there is one way to read them. -/
theorem FreeLists.unique {s : PmState} {L L' : ListIndex → List ℕ} (hL : FreeLists s L)
    (hL' : FreeLists s L') : L = L' := by
  funext k
  have hinj : Function.Injective Node.frame := fun _ _ h ↦ by simpa using h
  exact hinj.list_map ((hL.chain k).walk.unique (hL'.chain k).walk)

/-- The split loop puts list `m` back to `rest` in every round, so an upper half that belongs on
list `m` stays there only if it comes from the last one. -/
theorem expandLoop_front {L : ListIndex → List ℕ} {m : ListIndex} {front rest : List ℕ}
    {p o n : ℕ} {s : PmState} {T : Set ℕ} (hD : Detached s L m front rest p)
    (hB : Blocks s (insert p (Listed L)) T) (ho : (s.page p).order = o) (hn : n < o)
    (hmax : o ≤ pageMaxOrder) (hm : o - (n + 1) ≠ m) :
    ∃ s' L', expandLoop (n + 1) s p = .ok (p, s') ∧ FreeLists s' L' ∧ L' m = rest := by
  induction n generalizing s L front o with
  | zero =>
    obtain ⟨o, rfl⟩ : ∃ o', o = o' + 1 := ⟨o - 1, by omega⟩
    have h : o < pageMaxOrder + 1 := by omega
    have hD' := hD.expand (h := h) (hB.block p (Set.mem_insert _ _)) ho
    have hne : m ≠ ⟨o, h⟩ := fun hc ↦ hm (by rw [hc]; rfl)
    refine ⟨_, _, ?_, hD'.lists, ?_⟩
    · rw [expandLoop, pmExpandPage_succ ho h]; rfl
    · rw [hD'.split, if_neg hne]; rfl
  | succ n ih =>
    obtain ⟨o, rfl⟩ : ∃ o', o = o' + 1 := ⟨o - 1, by omega⟩
    have h : o < pageMaxOrder + 1 := by omega
    have hb := hB.block p (Set.mem_insert _ _)
    have hself : ((expandState s p o h).page p).order = o := by rw [expandState_page_self]
    obtain ⟨s', L', hrun, hL', hrest⟩ := ih (hD.expand (h := h) hb ho) (hD.blocks_expand hB ho)
      hself (by omega) (by omega) (by omega)
    refine ⟨s', L', ?_, hL', hrest⟩
    rw [expandLoop, pmExpandPage_succ ho h]
    exact hrun

section Call

variable {s s' : PmState} {L L' : ListIndex → List ℕ} {T T' : Set ℕ} {rest : List ℕ}
  {p order : ℕ}

theorem zoneList_val : (zoneList : ℕ) = 9 := rfl

/-- A call for at most 128 frames that takes its block from list 9 leaves that list without it: the
upper 2 MiB are put onto the list in the first round, and taken off it again with the next.  They
are counted all the same. -/
theorem Took.zoneList_eq (hS : Sound s L T) (hT : Took s s' L L' zoneList rest p (9 - order))
    (hrun : pmAllocatePages s order = .ok (some p, s')) (hS' : Sound s' L' T')
    (hsel : selectList s (pageMaxOrder + 1) order = some zoneList) (ho : (s.page p).order = 10)
    (horder : order ≤ 7) :
    L' zoneList = rest ∧ s'.count zoneList = (s.count zoneList - 1 + 1) % 2 ^ 32 := by
  have hn : (zoneList : ℕ) - order = 8 - order + 1 := by rw [zoneList_val]; omega
  have ho' : ((popState s zoneList p).page p).order = 10 := ho
  obtain ⟨s₁, L₁, hloop, hL₁, hrest⟩ := expandLoop_front (n := 8 - order) (hS.detached hT.pop)
    (hS.blocks_pop hT.pop) ho' (by omega) (le_refl _) (by rw [zoneList_val]; omega)
  obtain ⟨-, -, hcount⟩ := expandLoop_any ho' hloop
  rw [pmAllocatePages, if_neg (show ¬ order > 10 by omega), hsel] at hrun
  simp only [hS.selectPage hT.pop, hn] at hrun
  rw [popState, PmState.setCount, PmState.setLinks] at hloop
  simp only [PmState.setCount, PmState.setLinks] at hrun
  rw [hloop] at hrun
  simp only [Except.ok.injEq, Prod.mk.injEq, true_and] at hrun
  have hL' : FreeLists s₁ L' := by
    have h := hS'.lists
    rw [← hrun] at h
    exact h
  refine ⟨by rw [hL'.unique hL₁, hrest], ?_⟩
  rw [← hrun, PmState.setPage_count, hcount zoneList, if_pos (by rw [zoneList_val]; omega)]
  simp [popState]

end Call

/-! ## The invariant -/

theorem span_halfBlock (a : ℕ) :
    (Block.mk a 9).span archPageSize = Set.Ico a (a + pageMaxSize / 2) := by
  have hsize : (Block.mk a 9).size archPageSize = pageMaxSize / 2 := by
    simp [Block.size, archPageSize, pageMaxSize]
  rw [Block.span, hsize]

/-- `S` lies in the lower 2 MiB of one of the inserted blocks. -/
def LowerHalf (B : List ℕ) (S : Set ℕ) : Prop := ∃ b ∈ B, S ⊆ Set.Ico b (b + pageMaxSize / 2)

theorem LowerHalf.cons {B : List ℕ} {S : Set ℕ} (h : LowerHalf B S) (b : ℕ) :
    LowerHalf (b :: B) S := by
  obtain ⟨c, hc, hS⟩ := h
  exact ⟨c, List.mem_cons_of_mem _ hc, hS⟩

theorem LowerHalf.mono {B : List ℕ} {S S' : Set ℕ} (h : LowerHalf B S) (hS : S' ⊆ S) :
    LowerHalf B S' := by
  obtain ⟨c, hc, hc'⟩ := h
  exact ⟨c, hc, hS.trans hc'⟩

/-- What the runs with requests for at most 128 frames keep. -/
structure ZoneInv (s : PmState) (L : ListIndex → List ℕ) (B : List ℕ) (R : List Returned) :
    Prop where
  /-- The invariant of all runs. -/
  inv : RunInv s L B R
  /-- The inserted blocks are aligned. -/
  aligned : ∀ b ∈ B, pageMaxSize ∣ b
  /-- List 9 has blocks as they were inserted. -/
  zone : ∀ p ∈ L zoneList, (s.page p).order = pageMaxOrder ∧ (s.page p).addr ∈ B
  /-- Its counter counts the insertions. -/
  count : s.count zoneList = B.length % 2 ^ 32
  /-- List 10 is empty. -/
  top : ∀ k : ListIndex, zoneList < k → L k = []
  /-- The other free blocks lie in lower halves. -/
  listed : ∀ k, k ≠ zoneList → ∀ p ∈ L k, LowerHalf B ((s.block p).span archPageSize)
  /-- So does what was handed out. -/
  returned : ∀ r ∈ R, LowerHalf B (r.block.span archPageSize)

theorem ZoneInv.boot {s : PmState} (hboot : s.Boot) : ZoneInv s (fun _ ↦ []) [] [] where
  inv := RunInv.boot hboot
  aligned := by simp
  zone := by simp
  count := (hboot _).2
  top := by simp
  listed := by simp
  returned := by simp

theorem ZoneInv.insert {s : PmState} {L : ListIndex → List ℕ} {B : List ℕ} {R : List Returned}
    {pages address : ℕ} (hI : ZoneInv s L B R) (hzero : ZeroFilled s pages)
    (hal : pageMaxSize ∣ address) (hlt : address < 2 ^ 64) (hnew : address ∉ B) :
    ZoneInv (writePages s pages address) (Function.update L zoneList (pages :: L zoneList))
      (address :: B) R := by
  have hpage0 : (writePages s pages address).page pages = ⟨10, true, address⟩ := by
    simpa using writePages_page hzero hal hlt (show 0 < 1024 by omega)
  have hold : ∀ q ∈ Listed L, (writePages s pages address).page q = s.page q := by
    intro q hq
    refine writePages_page_of_notMem fun j hj ↦ ?_
    simpa using hI.inv.sound.notMem_zeroFilled hzero hq (Nat.two_pow_pos _) hj
  refine ⟨hI.inv.insert hzero hal hlt hnew, ?_, fun p hp ↦ ?_, ?_, fun k hk ↦ ?_,
    fun k hk p hp ↦ ?_, fun r hr ↦ (hI.returned r hr).cons address⟩
  · rintro b hb
    rcases List.mem_cons.mp hb with rfl | hb
    · exact hal
    · exact hI.aligned b hb
  · rw [Function.update_self] at hp
    rcases List.mem_cons.mp hp with rfl | hp
    · rw [hpage0]; exact ⟨rfl, List.mem_cons_self⟩
    · rw [hold p ⟨_, hp⟩]
      exact ⟨(hI.zone p hp).1, List.mem_cons_of_mem _ (hI.zone p hp).2⟩
  · rw [writePages_count, if_pos rfl, hI.count, List.length_cons]
    omega
  · rw [Function.update_of_ne (Fin.ne_of_gt hk)]
    exact hI.top k hk
  · rw [Function.update_of_ne hk] at hp
    rw [PmState.block, hold p ⟨k, hp⟩]
    exact (hI.listed k hk p hp).cons address

/-- What a call for at most 128 frames has done: it took the first block of list `m`, the list
lost just that, and the lists in between gained the upper halves. -/
structure TookLow (s s' : PmState) (L L' : ListIndex → List ℕ) (order p : ℕ) (m : ListIndex)
    (rest : List ℕ) : Prop where
  /-- The effect of the call. -/
  took : Took s s' L L' m rest p (m - order)
  /-- The list is not below the order asked for, nor above list 9. -/
  order_le : order ≤ m ∧ m ≤ zoneList
  /-- The lists passed over are empty. -/
  first : ∀ j : ListIndex, order ≤ j → j < m → L j = []
  /-- The list loses its first block. -/
  list_self : L' m = rest

theorem ZoneInv.order {s : PmState} {L : ListIndex → List ℕ} {B : List ℕ} {R : List Returned}
    (hI : ZoneInv s L B R) {m : ListIndex} {p : ℕ} (hp : p ∈ L m) :
    (s.page p).order = if m = zoneList then 10 else (m : ℕ) := by
  split
  · rename_i hm; subst hm; exact (hI.zone p hp).1
  · rename_i hm; exact hI.inv.order m hm p hp

theorem ZoneInv.alloc {s s' : PmState} {L : ListIndex → List ℕ} {B : List ℕ} {R : List Returned}
    {order p : ℕ} (hI : ZoneInv s L B R) (horder : order ≤ 7)
    (hcall : pmAllocatePages s order = .ok (some p, s')) :
    ∃ L' m rest, ZoneInv s' L' B (⟨order, s'.block p⟩ :: R) ∧
      TookLow s s' L L' order p m rest := by
  have hsound := hI.inv.sound
  obtain ⟨m, rest, L', hle, hcount, hfirst, hT, hS⟩ := pmAllocatePages_some hsound hcall
  obtain ⟨L₂, hI'⟩ := hI.inv.alloc hcall
  obtain rfl : L₂ = L' := hI'.sound.lists.unique hS.lists
  have hpm : p ∈ L m := by simp [hT.pop]
  have hm : m ≤ zoneList := by
    by_contra hcon
    rw [hI.top m (not_le.mp hcon)] at hpm
    simp at hpm
  have ho := hI.order hpm
  have hempty : ∀ j : ListIndex, order ≤ j → j < m → L j = [] := by
    intro j h1 h2
    have h0 := hfirst j h1 h2
    rw [hI.inv.count j (Fin.ne_of_lt (lt_of_lt_of_le h2 hm))] at h0
    exact List.eq_nil_of_length_eq_zero h0
  -- list 9, its counter, and where the block and its upper halves lie
  have hzone : L₂ m = rest ∧ s'.count zoneList = s.count zoneList ∧
      (∀ q ∈ L₂ zoneList, q ∈ L zoneList ∧ q ≠ p) ∧
      LowerHalf B ((s'.block p).span archPageSize) ∧
      ∀ k : ListIndex, k ≠ zoneList → (s.page p).order - (m - order) ≤ k →
        k < (s.page p).order →
        LowerHalf B ((upperHalf archPageSize (s.page p).addr k).span archPageSize) := by
    rcases eq_or_ne m zoneList with rfl | hmz
    · rw [if_pos rfl] at ho
      have hsel : selectList s (pageMaxOrder + 1) order = some zoneList := selectList_of_first hle
        (by rw [zoneList_val]; dsimp only [pageMaxOrder]; omega) hcount hfirst
      obtain ⟨hrest, hc⟩ := hT.zoneList_eq hsound hcall hS hsel ho horder
      have hlower : LowerHalf B ((Block.mk (s.page p).addr 9).span archPageSize) :=
        ⟨_, (hI.zone p hpm).2, (span_halfBlock _).subset⟩
      refine ⟨hrest, ?_, fun q hq ↦ ?_, ?_, fun k hk h1 h2 ↦ ?_⟩
      · have hlt : s.count zoneList < 2 ^ 32 := by rw [hI.count]; exact Nat.mod_lt _ (by decide)
        rw [hc]; omega
      · rw [hrest] at hq
        have hnd := hsound.lists.nodup zoneList
        rw [hT.pop, List.map_cons, List.nodup_cons] at hnd
        refine ⟨by rw [hT.pop]; exact List.mem_cons_of_mem _ hq, ?_⟩
        rintro rfl
        exact hnd.1 (List.mem_map_of_mem hq)
      · rw [hT.block_self, ho, zoneList_val]
        exact hlower.mono (span_mono (by omega))
      · have hk' : (k : ℕ) ≠ 9 := fun h ↦ hk (Fin.ext h)
        rw [ho] at h2
        exact hlower.mono (upperHalf_span_subset (by omega))
    · rw [if_neg hmz] at ho
      have hlow : (s.page p).order - (m - order) = order := by omega
      have hmlt : (m : ℕ) < 9 := lt_of_le_of_ne hm fun h ↦ hmz (Fin.ext h)
      have hlower := hI.listed m hmz p hpm
      have hlist : L₂ zoneList = L zoneList := by
        rw [hT.list_of_ne _ hmz.symm, if_neg (by rw [zoneList_val]; omega)]
      refine ⟨hT.list_self (by omega), ?_, fun q hq ↦ ?_, hlower.mono hT.span_self,
        fun k _ _ h2 ↦ hlower.mono (upperHalf_span_subset h2)⟩
      · rw [hT.count_of_ne _ hmz.symm, if_neg (by rw [zoneList_val]; omega)]
      · rw [hlist] at hq
        refine ⟨hq, ?_⟩
        rintro rfl
        rw [(hI.zone q hq).1] at ho
        dsimp only [pageMaxOrder] at ho
        omega
  obtain ⟨hself, hc, hz, hret, hnew⟩ := hzone
  have hmax : (s.page p).order ≤ 10 := (hsound.order m p hpm).2
  refine ⟨L₂, m, rest, ⟨hI', hI.aligned, fun q hq ↦ ?_, hc.trans hI.count, fun k hk ↦ ?_,
    fun k hk q hq ↦ ?_, fun r hr ↦ ?_⟩, hT, ⟨hle, hm⟩, hempty, hself⟩
  · obtain ⟨hold, hqp⟩ := hz q hq
    rw [hT.page_other hsound ⟨_, hold⟩ hqp]
    exact hI.zone q hold
  · have hk' : 9 < (k : ℕ) := hk
    rw [hT.list_of_ne k (ne_of_gt (lt_of_le_of_lt hm hk)), if_neg (by omega)]
    exact hI.top k hk
  · rcases hT.mem k q hq with ⟨hold, hqp⟩ | ⟨rfl, h1, h2⟩
    · rw [PmState.block, hT.page_other hsound ⟨k, hold⟩ hqp]
      exact hI.listed k hk q hold
    · rw [hT.block_new h1 h2]
      exact hnew k hk h1 h2
  · rcases List.mem_cons.mp hr with rfl | hr
    · exact hret
    · exact hI.returned r hr

/-! ## What the lists are good for -/

/-- How many requests of an order a block on list `k` is good for: one on list 9 loses its upper
half, and another one goes with the block first returned, which is twice as large as asked for. -/
def weight (order : ℕ) (k : ListIndex) : ℕ :=
  if k = zoneList then 2 ^ (9 - order) - 1
  else if order ≤ k ∧ k < zoneList then 2 ^ (k - order) else 0

/-- How many requests of an order the lists are good for. -/
def yieldOf (L : ListIndex → List ℕ) (order : ℕ) : ℕ :=
  ∑ k : ListIndex, (L k).length * weight order k

theorem yieldOf_insert (L : ListIndex → List ℕ) (pages order : ℕ) :
    yieldOf (Function.update L zoneList (pages :: L zoneList)) order =
      yieldOf L order + (2 ^ (9 - order) - 1) := by
  have hterm : ∀ k : ListIndex,
      (Function.update L zoneList (pages :: L zoneList) k).length * weight order k =
        (L k).length * weight order k + if k = zoneList then weight order k else 0 := by
    intro k
    rcases eq_or_ne k zoneList with rfl | hk
    · rw [Function.update_self, if_pos rfl, List.length_cons, Nat.succ_mul]
    · rw [Function.update_of_ne hk, if_neg hk, Nat.add_zero]
  rw [yieldOf, yieldOf, Finset.sum_congr rfl fun k _ ↦ hterm k, Finset.sum_add_distrib,
    Finset.sum_ite_eq' Finset.univ zoneList, if_pos (Finset.mem_univ _), weight, if_pos rfl]

/-- The upper halves cut off a block, and the block returned, are what the block was good for. -/
theorem sum_weight : ∀ order : Fin 8, ∀ m : ListIndex, (order : ℕ) ≤ m → m ≤ zoneList →
    (∑ k : ListIndex, if k ≠ m ∧
      (if m = zoneList then 10 else (m : ℕ)) - (m - order) ≤ k ∧
        (k : ℕ) < (if m = zoneList then 10 else (m : ℕ)) then weight order k else 0) + 1 =
      weight order m := by
  decide

/-- **A call uses up the yield of one request.** -/
theorem ZoneInv.yield_alloc {s s' : PmState} {L L' : ListIndex → List ℕ} {B : List ℕ}
    {R : List Returned} {m : ListIndex} {p order : ℕ} {rest : List ℕ} (hI : ZoneInv s L B R)
    (horder : order ≤ 7) (hT : TookLow s s' L L' order p m rest) :
    yieldOf L' order + 1 = yieldOf L order := by
  have hpop := hT.took.pop
  have ho := hI.order (show p ∈ L m by simp [hpop])
  -- list by list: the one taken from loses its first block, those passed over gain a half each
  have hterm : ∀ k : ListIndex,
      (L' k).length * weight order k + (if k = m then weight order k else 0) =
        (L k).length * weight order k + if k ≠ m ∧ (s.page p).order - (m - order) ≤ k ∧
          k < (s.page p).order then weight order k else 0 := by
    intro k
    rcases eq_or_ne k m with rfl | hk
    · rw [if_pos rfl, if_neg (by simp), hT.list_self, hpop, List.length_cons, Nat.succ_mul]
      rfl
    · rw [if_neg hk, hT.took.list_of_ne k hk]
      by_cases hc : (s.page p).order - (m - order) ≤ k ∧ k < (s.page p).order
      · rw [if_pos hc, if_pos ⟨hk, hc⟩, List.length_cons, Nat.succ_mul]; rfl
      · rw [if_neg hc, if_neg fun h ↦ hc h.2]
  have hsum := Finset.sum_congr (rfl : (Finset.univ : Finset ListIndex) = _) fun k _ ↦ hterm k
  rw [Finset.sum_add_distrib, Finset.sum_add_distrib, Finset.sum_ite_eq' Finset.univ m, ho] at hsum
  have hweight := sum_weight ⟨order, by omega⟩ m hT.order_le.1 hT.order_le.2
  simp only [Finset.mem_univ, if_true] at hsum hweight
  rw [yieldOf, yieldOf]
  omega

/-- **The next call**, for at most 128 frames: it returns a block as long as the lists are good for
one; after that it follows the empty list 9, the insertions still being counted, to null. -/
theorem ZoneInv.next {s : PmState} {L : ListIndex → List ℕ} {B : List ℕ} {R : List Returned}
    {order : ℕ} (hI : ZoneInv s L B R) (horder : order ≤ 7) (hB : B.length < 2 ^ 32) :
    (0 < yieldOf L order ∧ ∃ p s', pmAllocatePages s order = .ok (some p, s')) ∨
      yieldOf L order = 0 ∧
        pmAllocatePages s order = if B = [] then .ok (none, s) else .error .nullDereference := by
  have hle : order ≤ pageMaxOrder := horder.trans (by decide)
  have hcount : s.count zoneList = B.length := by rw [hI.count, Nat.mod_eq_of_lt hB]
  -- with nothing on the lists up to list 9, they are good for nothing
  have hzero : (∀ k : ListIndex, order ≤ k → k ≤ zoneList → L k = []) → yieldOf L order = 0 := by
    intro hnil
    refine Finset.sum_eq_zero fun k _ ↦ ?_
    rw [weight]
    split_ifs with h1 h2
    · rw [hnil k (by rw [h1, zoneList_val]; omega) (le_of_eq h1), List.length_nil, Nat.zero_mul]
    · rw [hnil k h2.1 h2.2.le, List.length_nil, Nat.zero_mul]
    · rw [Nat.mul_zero]
  have hlist : ∀ k : ListIndex, k ≠ zoneList → s.count k = 0 → L k = [] := fun k hk h0 ↦
    List.eq_nil_of_length_eq_zero (by rw [← hI.inv.count k hk, h0])
  rcases hsel : selectList s (pageMaxOrder + 1) order with _ | m
  · have hall := selectList_eq_none hsel (by omega)
    have hBnil : B = [] := List.eq_nil_of_length_eq_zero (by
      rw [← hcount]; exact hall zoneList (by rw [zoneList_val]; omega))
    refine Or.inr ⟨hzero fun k hk _ ↦ ?_, ?_⟩
    · rcases eq_or_ne k zoneList with rfl | hkz
      · refine List.eq_nil_iff_forall_not_mem.mpr fun p hp ↦ ?_
        have := (hI.zone p hp).2
        rw [hBnil] at this
        simp at this
      · exact hlist k hkz (hall k hk)
    · rw [if_pos hBnil, pmAllocatePages, if_neg (by omega), hsel]
  obtain ⟨hm, hne, hfirst⟩ := selectList_eq_some hsel
  rcases hL : L m with _ | ⟨p, rest⟩
  · have hmz : m = zoneList := by
      by_contra hmz
      rw [hI.inv.count m hmz, hL] at hne
      exact hne rfl
    subst hmz
    have hBne : B ≠ [] := by
      rintro rfl
      exact hne hcount
    refine Or.inr ⟨hzero fun k h1 h2 ↦ ?_, ?_⟩
    · rcases eq_or_ne k zoneList with rfl | hkz
      · exact hL
      · exact hlist k hkz (hfirst k h1 (lt_of_le_of_ne h2 hkz))
    · rw [if_neg hBne]
      exact pmAllocatePages_empty hI.inv.sound hle hsel hL
  · obtain ⟨s', L', hrun, -, -⟩ := pmAllocatePages_eq hI.inv.sound hle hsel hL
    obtain ⟨L'', m', rest', -, hT⟩ := hI.alloc horder hrun
    have := hI.yield_alloc horder hT
    exact Or.inl ⟨by omega, p, s', hrun⟩

/-! ## Runs -/

/-- The invariant holds at the end of every run with requests for at most 128 frames; where all
requests are of one order, those served and those the lists are still good for are as many as the
blocks inserted were good for. -/
theorem Run.zoneInv {s₀ s : PmState} {ss : List PmState} {B : List ℕ} {R : List Returned}
    (hboot : s₀.Boot) (hrun : Run s₀ (s :: ss) B R) (hR : ∀ r ∈ R, r.requested ≤ 7) :
    ∃ L, ZoneInv s L B R ∧ ∀ order ≤ 7, (∀ r ∈ R, r.requested = order) →
      R.length + yieldOf L order = B.length * (2 ^ (9 - order) - 1) := by
  generalize hstates : s :: ss = states at hrun
  induction hrun generalizing s ss with
  | boot =>
    rw [List.cons.injEq] at hstates
    obtain ⟨rfl, -⟩ := hstates
    exact ⟨_, ZoneInv.boot hboot, fun order _ _ ↦ by simp [yieldOf]⟩
  | @insert s₁ ss B R pages address _ hzero hal hlt hnew ih =>
    rw [List.cons.injEq] at hstates
    obtain ⟨rfl, -⟩ := hstates
    obtain ⟨L, hI, hyield⟩ := ih hR rfl
    refine ⟨_, hI.insert hzero hal hlt hnew, fun order horder hR' ↦ ?_⟩
    rw [yieldOf_insert, List.length_cons, Nat.succ_mul, ← hyield order horder hR', Nat.add_assoc]
  | alloc _ hcall ih =>
    rw [List.cons.injEq] at hstates
    obtain ⟨rfl, -⟩ := hstates
    obtain ⟨L, hI, hyield⟩ := ih (fun r hr ↦ hR r (List.mem_cons_of_mem _ hr)) rfl
    obtain ⟨L', m, rest, hI', hT⟩ := hI.alloc (hR _ List.mem_cons_self) hcall
    refine ⟨L', hI', fun order horder hR' ↦ ?_⟩
    obtain rfl := hR' _ List.mem_cons_self
    rw [← hyield _ horder fun r hr ↦ hR' r (List.mem_cons_of_mem _ hr),
      ← hI.yield_alloc horder hT, List.length_cons]
    omega
  | fail _ hcall ih =>
    rw [List.cons.injEq] at hstates
    obtain ⟨rfl, -⟩ := hstates
    rw [pmAllocatePages_none hcall]
    exact ih hR rfl

/-- **Half of every zone is lost.**  In a run from empty lists in which no request is for more than
128 frames, no frame of the upper 2 MiB of an inserted block is ever handed out. -/
theorem run_lower_half {s₀ : PmState} (hboot : s₀.Boot) {ss : List PmState} {B : List ℕ}
    {R : List Returned} (hrun : Run s₀ ss B R) (hR : ∀ r ∈ R, r.requested ≤ 7) :
    ∀ b ∈ B, ∀ r ∈ R, Disjoint (Set.Ico (b + pageMaxSize / 2) (b + pageMaxSize))
      (r.block.span archPageSize) := by
  obtain ⟨s, ss', rfl⟩ := hrun.ne_nil
  obtain ⟨L, hI, -⟩ := hrun.zoneInv hboot hR
  intro b hb r hr
  obtain ⟨c, hc, hsub⟩ := hI.returned r hr
  refine Disjoint.mono_right hsub (Set.disjoint_left.mpr fun x hx hx' ↦ ?_)
  -- the lower half of another block lies below or above this one
  obtain ⟨i, rfl⟩ := hI.aligned b hb
  obtain ⟨j, rfl⟩ := hI.aligned c hc
  rw [Set.mem_Ico] at hx hx'
  dsimp only [pageMaxSize] at hx hx'
  omega

/-- The 4 MiB at 4 MiB, inserted into the empty allocator. -/
theorem run_insert_one :
    Run zeroState [writePages zeroState 0 pageMaxSize, zeroState] [pageMaxSize] [] :=
  Run.boot.insert (zeroState_zeroFilled 0) (dvd_refl pageMaxSize) (by decide) (by simp)

/-- They are inserted and a single frame is asked for: it is none of the upper 2 MiB. -/
theorem run_lower_half_one : ∃ ss R, Run zeroState ss [pageMaxSize] R ∧ R ≠ [] ∧
    ∀ b ∈ [pageMaxSize], ∀ r ∈ R,
      Disjoint (Set.Ico (b + pageMaxSize / 2) (b + pageMaxSize)) (r.block.span archPageSize) := by
  obtain ⟨L, hI, hyield⟩ := run_insert_one.zoneInv zeroState_boot (by simp)
  have hy := hyield 0 (by omega) (by simp)
  rcases hI.next (Nat.zero_le 7) (by simp) with ⟨-, p, s', hcall⟩ | ⟨h0, -⟩
  · have hrun := run_insert_one.alloc hcall
    exact ⟨_, _, hrun, by simp, run_lower_half zeroState_boot hrun (by simp)⟩
  · rw [h0] at hy
    simp at hy

/-- **How long the memory lasts.**  In every run from empty lists in which all requests are of one
order, for at most 128 frames, a block inserted is good for `2 ^ (9 - order) - 1` requests, fewer
than half of what its frames would make up.  As long as there were fewer, the next is served; the
one after the last dereferences null. -/
theorem run_served {s₀ s : PmState} (hboot : s₀.Boot) {ss : List PmState} {B : List ℕ}
    {R : List Returned} (hrun : Run s₀ (s :: ss) B R) {order : ℕ} (horder : order ≤ 7)
    (hR : ∀ r ∈ R, r.requested = order) (hB : B.length < 2 ^ 32) :
    R.length ≤ B.length * (2 ^ (9 - order) - 1) ∧
      (R.length < B.length * (2 ^ (9 - order) - 1) →
        ∃ p s', pmAllocatePages s order = .ok (some p, s')) ∧
      (R.length = B.length * (2 ^ (9 - order) - 1) →
        pmAllocatePages s order = if B = [] then .ok (none, s) else .error .nullDereference) := by
  obtain ⟨L, hI, hyield⟩ := hrun.zoneInv hboot fun r hr ↦ (hR r hr).trans_le horder
  have hy := hyield order horder hR
  refine ⟨by omega, fun hlt ↦ ?_, fun heq ↦ ?_⟩ <;>
    rcases hI.next horder hB with ⟨hpos, hsome⟩ | ⟨h0, hnext⟩
  · exact hsome
  · omega
  · omega
  · exact hnext

/-- After one insertion a single frame is to be had. -/
theorem run_served_one :
    ∃ p s', pmAllocatePages (writePages zeroState 0 pageMaxSize) 0 = .ok (some p, s') :=
  (run_served zeroState_boot run_insert_one (Nat.zero_le 7) (by simp) (by simp)).2.1
    (by simp)

end CubikOS

import CubikOS.Mm.Free

/-!
# Reserving a range

`PM_MarkPagesUsed`, and what a reservation is worth to the calls of `PM_AllocatePages` after it.

The call goes through the frames from `ALIGN_DOWN(start)` to `ALIGN_UP(end)`, that one included,
and waits forever at one that has no descriptor.  Otherwise what it does is `markState` for one
frame after the other: `markLoop_iff`.

Marking a frame clears the `free` of its descriptor and unlinks it.  That takes a block off its
list when the frame is the first one of the block, and does nothing when the frame is a later one:
the descriptors inside a block are on no list, and their `free` is never looked at.  So a block
that starts inside the range is withdrawn as a whole, and a block that starts before it and reaches
into it stays on offer.

A descriptor that was taken off a list keeps the links it had there, and unlinking it once more
follows them.  `CalmFrames` is about these: where they are calm, marking does no more than delete.
-/

set_option autoImplicit false

namespace CubikOS

open Intrusive Buddy

/-! ## Marking one frame -/

/-- The state when the descriptor in slot `p` has been marked. -/
def markState (s : PmState) (p : ℕ) : PmState :=
  (s.setPage p { s.page p with free := false }).setLinks (linkedListRemove s.links (.frame p))

theorem markState_page_of_ne {s : PmState} {p x : ℕ} (hx : x ≠ p) :
    (markState s p).page x = s.page x := by
  rw [markState, PmState.setLinks_page, PmState.setPage_page, Function.update_of_ne hx]

theorem markState_block (s : PmState) (p x : ℕ) : (markState s p).block x = s.block x := by
  rcases eq_or_ne x p with rfl | hx
  · rw [PmState.block, markState, PmState.setLinks_page, PmState.setPage_page,
      Function.update_self]; rfl
  · rw [PmState.block, markState_page_of_ne hx]; rfl

/-! ## Frame after frame -/

/-- The slots of the `n` frames from `c` on. -/
def frameSlots (c n : ℕ) : List ℕ := (List.range n).map fun i ↦ pageSlot (c + archPageSize * i)

theorem frameSlots_succ (c n : ℕ) :
    frameSlots c (n + 1) = pageSlot c :: frameSlots (c + archPageSize) n := by
  rw [frameSlots, List.range_succ_eq_map, List.map_cons, List.map_map]
  refine congrArg₂ _ rfl (List.map_congr_left fun i _ ↦ ?_)
  rw [Function.comp_apply, Nat.succ_eq_add_one, Nat.mul_add, Nat.mul_one,
    Nat.add_comm (archPageSize * i), ← Nat.add_assoc]

/-- A frame without a descriptor is waited for. -/
theorem markLoop_stuck {c e : ℕ} {s : PmState} (hle : c ≤ e)
    (hnone : s.present (pageSlot c) = false) (fuel : ℕ) :
    markLoop e fuel s c = .error .outOfFuel := by
  have hget : pmGetPage s c = none := by rw [pmGetPage, hnone]; rfl
  induction fuel with
  | zero => rfl
  | succ fuel ih => rw [markLoop, if_pos hle, hget]; exact ih

/-- **The call returns if and only if all frames it comes to have descriptors**, and then it has
marked them one after the other. -/
theorem markLoop_iff {c e n : ℕ} {s s' : PmState} (he : e + archPageSize < 2 ^ 64)
    (hlast : e < c + archPageSize * n)
    (hn : ∀ i, i < n → c + archPageSize * i ≤ e) :
    (∃ fuel, markLoop e fuel s c = .ok s') ↔
      (∀ p ∈ frameSlots c n, s.present p = true) ∧ s' = (frameSlots c n).foldl markState s := by
  induction n generalizing c s with
  | zero =>
    have hlt : ¬ c ≤ e := by omega
    constructor
    · rintro ⟨fuel, hrun⟩
      rcases fuel with _ | fuel
      · simp [markLoop] at hrun
      · rw [markLoop, if_neg hlt, Except.ok.injEq] at hrun
        exact ⟨by simp [frameSlots], hrun.symm⟩
    · rintro ⟨-, rfl⟩
      exact ⟨1, by rw [markLoop, if_neg hlt]⟩
  | succ n ih =>
    have hle : c ≤ e := by simpa using hn 0 (Nat.succ_pos n)
    have hnext : (c + archPageSize) % 2 ^ 64 = c + archPageSize := Nat.mod_eq_of_lt (by omega)
    rw [Nat.mul_succ] at hlast
    have hn' : ∀ i, i < n → c + archPageSize + archPageSize * i ≤ e := by
      intro i hi
      have hi' := hn (i + 1) (by omega)
      rw [Nat.mul_succ] at hi'
      omega
    have ih := ih (c := c + archPageSize) (s := markState s (pageSlot c)) (by omega) hn'
    rw [frameSlots_succ, List.foldl_cons, List.forall_mem_cons]
    cases hpresent : s.present (pageSlot c) with
    | false =>
      constructor
      · rintro ⟨fuel, hrun⟩
        rw [markLoop_stuck hle hpresent] at hrun
        simp at hrun
      · rintro ⟨⟨h, -⟩, -⟩
        simp at h
    | true =>
      have hget : pmGetPage s c = some (pageSlot c) := if_pos hpresent
      have hstep : ∀ fuel, markLoop e (fuel + 1) s c =
          markLoop e fuel (markState s (pageSlot c)) (c + archPageSize) := by
        intro fuel
        rw [markLoop, if_pos hle, hget, hnext]
        rfl
      have hsame : (∃ fuel, markLoop e fuel s c = .ok s') ↔
          ∃ fuel, markLoop e fuel (markState s (pageSlot c)) (c + archPageSize) = .ok s' := by
        constructor
        · rintro ⟨fuel, hrun⟩
          rcases fuel with _ | fuel
          · simp [markLoop] at hrun
          · exact ⟨fuel, by rw [← hstep]; exact hrun⟩
        · rintro ⟨fuel, hrun⟩
          exact ⟨fuel + 1, by rw [hstep]; exact hrun⟩
      rw [hsame, ih]
      exact ⟨fun h ↦ ⟨⟨rfl, h.1⟩, h.2⟩, fun h ↦ ⟨h.1.2, h.2⟩⟩

section Fold

variable (fs : List ℕ) (s : PmState)

/-- Exactly the flags of the frames that are marked are cleared. -/
theorem foldl_markState_free (x : ℕ) :
    ((fs.foldl markState s).page x).free = if x ∈ fs then false else (s.page x).free := by
  induction fs generalizing s with
  | nil => simp
  | cons p fs ih =>
    rw [List.foldl_cons, ih]
    by_cases hx : x ∈ fs
    · rw [if_pos hx, if_pos (List.mem_cons_of_mem _ hx)]
    · rw [if_neg hx]
      rcases eq_or_ne x p with rfl | hne
      · rw [if_pos List.mem_cons_self, markState, PmState.setLinks_page, PmState.setPage_page,
          Function.update_self]
      · rw [markState_page_of_ne hne, if_neg]
        rw [List.mem_cons, not_or]
        exact ⟨hne, hx⟩

theorem foldl_markState_links : (fs.foldl markState s).links =
    fs.foldl (fun h p ↦ linkedListRemove h (.frame p)) s.links := by
  induction fs generalizing s with
  | nil => rfl
  | cons p fs ih => rw [List.foldl_cons, ih]; rfl

theorem foldl_markState_count : (fs.foldl markState s).count = s.count := by
  induction fs generalizing s with
  | nil => rfl
  | cons p fs ih => rw [List.foldl_cons, ih]; rfl

/-- The order and the address of a descriptor stay. -/
theorem foldl_markState_block (x : ℕ) : (fs.foldl markState s).block x = s.block x := by
  induction fs generalizing s with
  | nil => rfl
  | cons p fs ih => rw [List.foldl_cons, ih, markState_block]

end Fold

/-! ## What becomes of the lists -/

/-- The descriptors inside listed blocks. -/
def insides (s : PmState) (L : ListIndex → List ℕ) : Set Node :=
  {y | ∃ p ∈ Listed L, ∃ i, 0 < i ∧ i < 2 ^ (s.page p).order ∧ y = .frame (p + i)}

/-- Marking the descriptors `fs` takes those of them off the lists that head a listed block, and
does nothing else to a list or to the inside of a listed block. -/
structure LeavesLists (s : PmState) (L : ListIndex → List ℕ) (fs : List ℕ) : Prop where
  /-- The other blocks stay where they are. -/
  lists : FreeLists (fs.foldl markState s) fun k ↦ (L k).diff fs
  /-- The descriptors inside blocks are on no list, as before. -/
  inner : ∀ y ∈ insides s L, (fs.foldl markState s).links y = Link.null

/-- The links that the descriptors `fs` are left with do no harm to the lists or to the nodes of
`I`, as they are before the first one is marked. -/
def CalmFrames (s : PmState) (L : ListIndex → List ℕ) (I : Set Node) (fs : List ℕ) : Prop :=
  Calm s.links Node.handle (fun k ↦ (L k).map Node.frame) I (fs.map Node.frame)

section Lists

variable {s : PmState} {L : ListIndex → List ℕ} {T : Set ℕ} {I : Set Node} {fs : List ℕ} {p : ℕ}

/-- **Marking calm descriptors deletes them from the lists.** -/
theorem FreeLists.foldl_mark (hL : FreeLists s L) (hnd : fs.Nodup)
    (hI : ∀ y ∈ I, ∀ k, y ∉ .handle k :: (L k).map .frame) (hcalm : CalmFrames s L I fs) :
    FreeLists (fs.foldl markState s) (fun k ↦ (L k).diff fs) ∧
      ∀ y ∈ I, (fs.foldl markState s).links y = s.links y := by
  have hinj : Function.Injective Node.frame := fun _ _ h ↦ Node.frame.inj h
  have hlinks : (fs.foldl markState s).links = (fs.map Node.frame).foldl Heap.unlink s.links := by
    rw [foldl_markState_links, List.foldl_map]
    rfl
  obtain ⟨h1, h2⟩ := Lists.unlinkAll hL hI (by simp) (hnd.map hinj) hcalm
  refine ⟨?_, by rw [hlinks]; exact h2⟩
  rw [FreeLists, hlinks]
  simpa only [List.map_diff hinj] using h1

theorem mem_insides {i : ℕ} (hp : p ∈ Listed L) (h0 : 0 < i) (hi : i < 2 ^ (s.page p).order) :
    Node.frame (p + i) ∈ insides s L := ⟨p, hp, i, h0, hi, rfl⟩

theorem Sound.null_of_mem_insides (hS : Sound s L T) {y : Node} (hy : y ∈ insides s L) :
    s.links y = Link.null := by
  obtain ⟨p, hp, i, h0, hi, rfl⟩ := hy
  exact (hS.blocks.block p hp).inner i h0 hi

/-- A sound state keeps its lists when what is marked is calm. -/
theorem Sound.leavesLists (hS : Sound s L T) (hnd : fs.Nodup)
    (hcalm : CalmFrames s L (insides s L) fs) : LeavesLists s L fs := by
  have hI : ∀ y ∈ insides s L, ∀ k, y ∉ Node.handle k :: (L k).map Node.frame := by
    intro y hy k hmem
    have hnull := hS.null_of_mem_insides hy
    obtain ⟨p, hp, i, h0, hi, rfl⟩ := hy
    have hnone := hS.lists.notMem_of_null hnull
    simp only [List.mem_cons, reduceCtorEq, false_or, List.mem_map, Node.frame.injEq,
      exists_eq_right] at hmem
    exact hnone ⟨k, hmem⟩
  obtain ⟨h1, h2⟩ := hS.lists.foldl_mark hnd hI hcalm
  exact ⟨h1, fun y hy ↦ (h2 y hy).trans (hS.null_of_mem_insides hy)⟩

theorem FreeLists.nodup_list (hL : FreeLists s L) (k : ListIndex) : (L k).Nodup :=
  List.Nodup.of_map _ (hL.nodup k)

/-- A marked state is sound, the marked blocks being on offer no more. -/
theorem Sound.foldl_mark (hS : Sound s L T) (hleaves : LeavesLists s L fs) :
    Sound (fs.foldl markState s) (fun k ↦ (L k).diff fs) T := by
  have hmem : ∀ k q, q ∈ (L k).diff fs → q ∈ L k ∧ q ∉ fs :=
    fun k q hq ↦ (hS.lists.nodup_list k).mem_sdiff_iff.mp hq
  have hpage : ∀ q, ((fs.foldl markState s).page q).order = (s.page q).order :=
    fun q ↦ congrArg Block.order (foldl_markState_block fs s q)
  have hsub : Listed (fun k ↦ (L k).diff fs) ⊆ Listed L := fun q ⟨k, hq⟩ ↦ ⟨k, (hmem k q hq).1⟩
  refine ⟨hleaves.lists, ?_, fun k q hq ↦ ?_⟩
  · refine (hS.blocks.mono hsub).congr (fun q _ i _ ↦ ?_) (fun q _ ↦ hpage q)
      (fun q ⟨k, hq⟩ ↦ ?_) fun q ⟨k, hq⟩ i h0 hi _ ↦ ?_
    · exact congrArg Block.base (foldl_markState_block fs s (q + i))
    · rw [foldl_markState_free, if_neg (hmem k q hq).2]
      exact (hS.blocks.block q ⟨k, (hmem k q hq).1⟩).free
    · exact hleaves.inner _ (mem_insides ⟨k, (hmem k q hq).1⟩ h0 hi)
  · rw [hpage]
    exact hS.order k q (hmem k q hq).1

end Lists

/-! ## The frames of a range -/

/-- The slots of the frames from `c` to `e`. -/
def Visited (c e : ℕ) : Set ℕ := {p | ∃ x, c ≤ x ∧ x ≤ e ∧ archPageSize ∣ x ∧ p = pageSlot x}

/-- How many frames a call goes through. -/
def frameCount (range : Range) : ℕ :=
  (alignUp range.stop archPageSize - alignDown range.start archPageSize) / archPageSize + 1

/-- The slots of these frames. -/
def rangeSlots (range : Range) : List ℕ :=
  frameSlots (alignDown range.start archPageSize) (frameCount range)

theorem dvd_alignDown (x : ℕ) : archPageSize ∣ alignDown x archPageSize := Dvd.intro_left _ rfl

section Range

variable {range : Range}

/-- The ends of the range, rounded. -/
theorem range_bounds (hle : range.start ≤ range.stop) (hstop : range.stop < 2 ^ 63) :
    archPageSize ∣ alignDown range.start archPageSize ∧
      archPageSize ∣ alignUp range.stop archPageSize ∧
      alignDown range.start archPageSize ≤ range.start ∧
      range.start < alignDown range.start archPageSize + archPageSize ∧
      range.stop ≤ alignUp range.stop archPageSize ∧
      alignUp range.stop archPageSize < range.stop + archPageSize ∧
      alignDown range.start archPageSize ≤ alignUp range.stop archPageSize := by
  rw [alignUp, alignDown, alignDown]
  dsimp only [archPageSize]
  omega

theorem mem_rangeSlots (hle : range.start ≤ range.stop) (hstop : range.stop < 2 ^ 63) {p : ℕ} :
    p ∈ rangeSlots range ↔
      p ∈ Visited (alignDown range.start archPageSize) (alignUp range.stop archPageSize) := by
  obtain ⟨⟨a, ha⟩, ⟨b, hb⟩, -, -, -, -, hab⟩ := range_bounds hle hstop
  rw [rangeSlots, frameSlots, List.mem_map, frameCount, ha, hb]
  rw [ha, hb] at hab
  constructor
  · rintro ⟨i, hi, rfl⟩
    rw [List.mem_range] at hi
    refine ⟨_, ?_, ?_, ⟨a + i, by rw [Nat.mul_add]⟩, rfl⟩
    · omega
    · dsimp only [archPageSize] at *; omega
  · rintro ⟨x, h1, h2, ⟨c, rfl⟩, rfl⟩
    refine ⟨c - a, List.mem_range.mpr ?_, ?_⟩
    · dsimp only [archPageSize] at *; omega
    · rw [← Nat.mul_add]
      congr 2
      dsimp only [archPageSize] at *; omega

/-- The frames a call goes through lie between the ends of the range, rounded. -/
theorem frame_le_alignUp {i : ℕ}
    (hge : alignDown range.start archPageSize ≤ alignUp range.stop archPageSize)
    (hi : i < frameCount range) :
    alignDown range.start archPageSize + archPageSize * i ≤ alignUp range.stop archPageSize := by
  obtain ⟨a, ha⟩ := dvd_alignDown range.start
  obtain ⟨b, hb⟩ : archPageSize ∣ alignUp range.stop archPageSize := dvd_alignDown _
  rw [frameCount] at hi
  dsimp only [archPageSize] at ha hb hge hi ⊢
  omega

theorem nodup_rangeSlots (range : Range) : (rangeSlots range).Nodup := by
  rcases Nat.lt_or_ge (alignUp range.stop archPageSize) (alignDown range.start archPageSize)
    with hlt | hge
  · have hone : frameCount range = 1 := by
      rw [frameCount, Nat.sub_eq_zero_of_le hlt.le, Nat.zero_div]
    rw [rangeSlots, hone]
    simp [frameSlots]
  · have hlt : alignUp range.stop archPageSize < 2 ^ 64 := by
      rw [alignUp, alignDown]
      dsimp only [archPageSize]
      omega
    rw [rangeSlots, frameSlots]
    refine List.Nodup.map_on ?_ List.nodup_range
    intro i hi j hj heq
    have hi := frame_le_alignUp hge (List.mem_range.mp hi)
    have hj := frame_le_alignUp hge (List.mem_range.mp hj)
    have hij := pageSlot_inj_of_lt (hi.trans_lt hlt) (hj.trans_lt hlt)
      (Nat.dvd_add (dvd_alignDown _) (Nat.dvd_mul_right _ _))
      (Nat.dvd_add (dvd_alignDown _) (Nat.dvd_mul_right _ _)) heq
    exact Nat.eq_of_mul_eq_mul_left (by decide) (Nat.add_left_cancel hij)

/-- The call in terms of these frames. -/
theorem pmMarkPagesUsed_iff {s s' : PmState} (hle : range.start ≤ range.stop)
    (hstop : range.stop < 2 ^ 63) :
    (∃ fuel, pmMarkPagesUsed fuel s range (alignDown range.start archPageSize) = .ok s') ↔
      (∀ p ∈ rangeSlots range, s.present p = true) ∧ s' = (rangeSlots range).foldl markState s := by
  obtain ⟨-, -, -, -, -, hhigh, hab⟩ := range_bounds hle hstop
  have hlast : alignUp range.stop archPageSize <
      alignDown range.start archPageSize + archPageSize * frameCount range := by
    rw [frameCount, ← Nat.sub_lt_iff_lt_add' hab]
    exact Nat.lt_mul_div_succ _ (Nat.succ_pos _)
  have he : alignUp range.stop archPageSize + archPageSize < 2 ^ 64 := by
    dsimp only [archPageSize] at hhigh ⊢
    omega
  simp only [pmMarkPagesUsed, rangeSlots]
  exact markLoop_iff he hlast fun i hi ↦ frame_le_alignUp hab hi

end Range

/-- The first frame whose descriptor does not fit between `KERNEL_PHYSICAL_PAGES` and the end of
the address space. -/
abbrev describedEnd : ℕ := (2 ^ 64 - kernelPhysicalPages) / pageframeSize * archPageSize

/-! ## The calls that follow -/

/-- A sequence of calls of `PM_AllocatePages` from state `s`: `R` are the blocks they return. -/
inductive Allocs (s : PmState) : List Block → PmState → Prop
  | nil : Allocs s [] s
  | some {R : List Block} {t t' : PmState} {order p : ℕ} (h : Allocs s R t)
      (hcall : pmAllocatePages t order = .ok (some p, t')) : Allocs s (t'.block p :: R) t'
  | none {R : List Block} {t t' : PmState} {order : ℕ} (h : Allocs s R t)
      (hcall : pmAllocatePages t order = .ok (none, t')) : Allocs s R t'

/-- Sound states stay sound, and nothing that must not be handed out is. -/
theorem Allocs.sound {s t : PmState} {L : ListIndex → List ℕ} {T : Set ℕ} {R : List Block}
    (hS : Sound s L T) (hrun : Allocs s R t) :
    (∃ L' T', T ⊆ T' ∧ Sound t L' T') ∧ ∀ b ∈ R, Disjoint (b.span archPageSize) T := by
  induction hrun with
  | nil => exact ⟨⟨L, T, Set.Subset.rfl, hS⟩, by simp⟩
  | some _ hcall ih =>
    obtain ⟨⟨L', T', hT, hS'⟩, hR⟩ := ih
    obtain ⟨m, rest, L'', -, -, -, hTook, hS''⟩ := pmAllocatePages_some hS' hcall
    refine ⟨⟨L'', _, hT.trans Set.subset_union_left, hS''⟩, fun b hb ↦ ?_⟩
    rcases List.mem_cons.mp hb with rfl | hb
    · exact (hS'.blocks.taken _ hTook.listed).mono hTook.span_self hT
    · exact hR b hb
  | none _ hcall ih =>
    rw [pmAllocatePages_none hcall]; exact ih

/-- A run from the state one call leads to, with that call put before it. -/
theorem Allocs.trans {s t u : PmState} {R R' : List Block} (h : Allocs s R t)
    (h' : Allocs t R' u) : Allocs s (R' ++ R) u := by
  induction h' with
  | nil => exact h
  | some _ hcall ih => exact ih.some hcall
  | none _ hcall ih => exact ih.none hcall

/-- **Every listed block can be had**: requests for its order return one block of its list after
the other. -/
theorem exists_allocs_of_mem {s : PmState} {L : ListIndex → List ℕ} {T : Set ℕ} {k : ListIndex}
    {p : ℕ} (hS : Sound s L T) (hp : p ∈ L k) (hcount : (L k).length ≤ s.count k)
    (ho : ∀ q ∈ L k, (s.page q).order = k) : ∃ R t, Allocs s R t ∧ s.block p ∈ R := by
  induction hn : (L k).length generalizing s L T with
  | zero =>
    rw [List.eq_nil_of_length_eq_zero hn] at hp
    simp at hp
  | succ n ih =>
    rcases hk : L k with _ | ⟨q, rest⟩
    · rw [hk] at hp; simp at hp
    have hsel : selectList s (pageMaxOrder + 1) k = some k := by
      refine selectList_of_first (le_refl _) (by omega) (by omega) fun j h1 h2 ↦ ?_
      exact absurd (Fin.lt_def.mp h2) (by omega)
    obtain ⟨s', L', hcall, hT, hS'⟩ := pmAllocatePages_eq hS (by omega) hsel hk
    rw [Nat.sub_self] at hT
    have hself : ¬ ((s.page q).order - 0 ≤ k ∧ k < (s.page q).order) := by omega
    have hcalls : Allocs s [s'.block q] s' := Allocs.nil.some hcall
    rcases eq_or_ne p q with rfl | hpq
    · refine ⟨_, s', hcalls, ?_⟩
      rw [hT.block_self]; simp [PmState.block]
    · have hrest : L' k = rest := hT.list_self hself
      have hother : ∀ x ∈ rest, x ≠ q ∧ s'.page x = s.page x := by
        intro x hx
        have hxq : x ≠ q := by
          rintro rfl
          have hnd : (L k).Nodup := List.Nodup.of_map _ (hS.lists.nodup k)
          rw [hk] at hnd
          exact (List.nodup_cons.mp hnd).1 hx
        exact ⟨hxq, hT.page_other hS ⟨k, by rw [hk]; simp [hx]⟩ hxq⟩
      rw [hk] at hp hcount hn ho
      have hp' : p ∈ rest := by
        rcases List.mem_cons.mp hp with rfl | hp
        · exact absurd rfl hpq
        · exact hp
      simp only [List.length_cons] at hcount hn
      obtain ⟨R, t, hrun, hmem⟩ := ih hS' (by rw [hrest]; exact hp')
        (by rw [hrest, hT.count_self hself]; omega)
        (by
          rw [hrest]; intro x hx
          rw [(hother x hx).2]; exact ho x (List.mem_cons_of_mem _ hx))
        (by rw [hrest]; omega)
      refine ⟨_, t, hcalls.trans hrun, ?_⟩
      rw [PmState.block, (hother p hp').2] at hmem
      exact List.mem_append_left _ hmem

/-! ## The reservation -/

/-- No sequence of later allocations returns a block that contains a part of the range. -/
def NeverReturned (s : PmState) (range : Range) : Prop :=
  ∀ R t, Allocs s R t → ∀ b ∈ R, Disjoint (b.span archPageSize) (Set.Ico range.start range.stop)

/-- The descriptors of the listed blocks are where `PM_GetPage` looks for them. -/
def InPlace (s : PmState) (L : ListIndex → List ℕ) : Prop :=
  ∀ p ∈ Listed L, (s.page p).addr < describedEnd ∧ p = pageSlot (s.page p).addr

theorem WellFormed.dvd_addr {s : PmState} {L : ListIndex → List ℕ} {A : Set Block}
    (hwf : WellFormed s L A) {p : ℕ} (hp : p ∈ Listed L) : archPageSize ∣ (s.page p).addr :=
  Nat.dvd_trans (Dvd.intro _ rfl) (hwf.blocks.block p hp).aligned

section Reservation

variable {s s' : PmState} {L : ListIndex → List ℕ} {A : Set Block} {range : Range} {fuel : ℕ}

/-- A block whose descriptor the call comes to lies between the ends of the range, rounded. -/
theorem WellFormed.mem_rangeSlots_iff (hwf : WellFormed s L A) (hplace : InPlace s L)
    (hle : range.start ≤ range.stop) (hstop : range.stop ≤ describedEnd) {p : ℕ}
    (hp : p ∈ Listed L) : p ∈ rangeSlots range ↔
      alignDown range.start archPageSize ≤ (s.page p).addr ∧
        (s.page p).addr ≤ alignUp range.stop archPageSize := by
  obtain ⟨haddr, hslot⟩ := hplace p hp
  have hend : describedEnd < 2 ^ 63 := by decide
  obtain ⟨-, -, -, -, -, hhigh, -⟩ := range_bounds hle (hstop.trans_lt hend)
  rw [mem_rangeSlots hle (hstop.trans_lt hend)]
  constructor
  · rintro ⟨x, h1, h2, hx, heq⟩
    have hxa := pageSlot_inj_of_lt (by omega) (by dsimp only [archPageSize] at *; omega)
      (hwf.dvd_addr hp) hx (hslot.symm.trans heq)
    exact hxa ▸ ⟨h1, h2⟩
  · rintro ⟨h1, h2⟩
    exact ⟨_, h1, h2, hwf.dvd_addr hp, hslot⟩

/-- A block that starts before the range stays on its list, so some run returns it. -/
theorem exists_allocs_of_addr_lt (hwf : WellFormed s L A) (hplace : InPlace s L)
    (hle : range.start ≤ range.stop) (hstop : range.stop ≤ describedEnd)
    (hleaves : LeavesLists s L (rangeSlots range)) {p : ℕ} (hp : p ∈ Listed L)
    (hlt : (s.page p).addr < alignDown range.start archPageSize) :
    ∃ R t, Allocs ((rangeSlots range).foldl markState s) R t ∧ s.block p ∈ R := by
  have hnot := mt (hwf.mem_rangeSlots_iff hplace hle hstop hp).mp (by omega)
  obtain ⟨k, hk⟩ := hp
  have hnd := hwf.lists.nodup_list k
  obtain ⟨R, t, hcalls, hmem⟩ := exists_allocs_of_mem (hwf.sound.foldl_mark hleaves)
    (hnd.mem_sdiff_iff.mpr ⟨hk, hnot⟩)
    (by rw [foldl_markState_count, hwf.count]; exact (List.diff_sublist _ _).length_le)
    (fun q hq ↦ (congrArg Block.order (foldl_markState_block _ s q)).trans
      (hwf.order k q (hnd.mem_sdiff_iff.mp hq).1))
  rw [foldl_markState_block] at hmem
  exact ⟨R, t, hcalls, hmem⟩

/-- **What a reservation is worth.**  On a well-formed state in which leftover links do not reach
the lists, the range is never handed out if and only if no listed block starts before its first
frame and reaches into it.  They do not reach the lists when they are calm before the call. -/
theorem neverReturned_iff (hwf : WellFormed s L A) (hplace : InPlace s L)
    (hstop : range.stop ≤ describedEnd)
    (hrun : pmMarkPagesUsed fuel s range (alignDown range.start archPageSize) = .ok s') :
    (LeavesLists s L (rangeSlots range) → (NeverReturned s' range ↔
      ∀ p ∈ Listed L, (s.page p).addr < alignDown range.start archPageSize →
        Disjoint ((s.block p).span archPageSize) (Set.Ico range.start range.stop))) ∧
    (CalmFrames s L (insides s L) (rangeSlots range) → LeavesLists s L (rangeSlots range)) := by
  have hend : describedEnd < 2 ^ 63 := by decide
  refine ⟨fun hleaves ↦ ?_, hwf.sound.leavesLists (nodup_rangeSlots range)⟩
  rcases Nat.lt_or_ge range.stop range.start with hempty | hle
  · have hno : Set.Ico range.start range.stop = ∅ := Set.Ico_eq_empty (by omega)
    simp [NeverReturned, hno]
  obtain ⟨-, rfl⟩ := (pmMarkPagesUsed_iff hle (hstop.trans_lt hend)).mp ⟨fuel, hrun⟩
  constructor
  · intro hnever p hp hlt
    obtain ⟨R, t, hcalls, hmem⟩ := exists_allocs_of_addr_lt hwf hplace hle hstop hleaves hp hlt
    exact hnever R t hcalls _ hmem
  · -- every block left on a list starts before the range or after it
    intro hstart R t hcalls
    obtain ⟨-, -, -, -, hstop1, -, -⟩ := range_bounds hle (hstop.trans_lt hend)
    have hS := hwf.sound.foldl_mark hleaves
    refine (hcalls.sound (T := Set.Ico range.start range.stop)
      ⟨hS.lists, ⟨hS.blocks.block, hS.blocks.apart, ?_⟩, hS.order⟩).2
    rintro p ⟨k, hk⟩
    obtain ⟨hk, hnot⟩ := (hwf.lists.nodup_list k).mem_sdiff_iff.mp hk
    rw [foldl_markState_block]
    rcases Nat.lt_or_ge (s.page p).addr (alignDown range.start archPageSize) with hlt | hge
    · exact hstart p ⟨k, hk⟩ hlt
    · rw [Set.disjoint_left]
      rintro x hx ⟨-, h2⟩
      rw [Block.mem_span] at hx
      have hx1 : (s.page p).addr ≤ x := hx.1
      exact hnot ((hwf.mem_rangeSlots_iff hplace hle hstop ⟨k, hk⟩).mpr ⟨hge, by omega⟩)

end Reservation

/-! ### Reserving one frame -/

/-- With a single block on the lists, every descriptor is on a list or has no links. -/
theorem calmFrames_singleState {k : ListIndex} {p : ℕ} {page : ℕ → Pageframe} (I : Set Node)
    (fs : List ℕ) : CalmFrames (singleState k p page) (singleLists k p) I fs := by
  refine calm_of_leadsOutside fun x hx ↦ ?_
  obtain ⟨q, -, rfl⟩ := List.mem_map.mp hx
  rcases eq_or_ne q p with rfl | hq
  · exact Or.inl ⟨k, by simp [singleLists]⟩
  · exact Or.inr (leadsOutside_of_null (by simp [singleState, hq]) _)

theorem inPlace_singleState {k : ListIndex} {p a : ℕ} {page : ℕ → Pageframe}
    (ha : (page p).addr = a) (hlt : a < describedEnd) (hp : p = pageSlot a) :
    InPlace (singleState k p page) (singleLists k p) := by
  rw [InPlace, listed_singleLists]
  rintro q rfl
  exact ⟨by rw [← ha] at hlt; exact hlt, by rw [← ha] at hp; exact hp⟩

/-- The frame at 4 MiB. -/
def listedFrame : Range := ⟨pageMaxSize, pageMaxSize + archPageSize⟩

/-- The frame at 4 MiB is free, and the one behind it was taken off `pf_freelist[k]`, the links it
had there being left. -/
def oneTaken (k : ListIndex) : PmState :=
  oneFrame.setLinks (Function.update oneFrame.links
    (.frame (pageSlot (pageMaxSize + archPageSize))) ⟨some (.handle k), none⟩)

theorem oneTaken_links (k : ListIndex) (y : Node) : (oneTaken k).links y =
    if y = .frame (pageSlot (pageMaxSize + archPageSize)) then ⟨some (.handle k), none⟩
    else oneFrame.links y := by
  rw [oneTaken, PmState.setLinks_links, Function.update_apply]

theorem wellFormed_oneTaken (k : ListIndex) :
    WellFormed (oneTaken k) (singleLists 0 (pageSlot pageMaxSize)) ∅ := by
  have hwf := wellFormed_oneFrame
  have hne : pageSlot pageMaxSize ≠ pageSlot (pageMaxSize + archPageSize) := by decide
  refine ⟨Lists.congr hwf.lists (fun k ↦ by rw [oneTaken_links, if_neg (by simp)]) ?_, hwf.count,
    hwf.order, hwf.blocks.congr (fun _ _ _ _ ↦ rfl) (fun _ _ ↦ rfl)
      (fun q hq ↦ (hwf.blocks.block q hq).free) ?_, hwf.allocated⟩
  · intro k x hx
    obtain ⟨q, hq, rfl⟩ := List.mem_map.mp hx
    have hq : q ∈ Listed (singleLists 0 (pageSlot pageMaxSize)) := ⟨k, hq⟩
    rw [listed_singleLists] at hq
    subst hq
    rw [oneTaken_links, if_neg (by simpa using hne)]
  · rw [listed_singleLists]
    rintro q rfl i h0 hi
    simp only [oneFrame, singleState, if_pos, pow_zero] at hi
    omega

/-- A descriptor that is not on the list has links to no other descriptor. -/
theorem not_linksTo_oneTaken (k : ListIndex) {p q : ℕ} (hp : p ≠ pageSlot pageMaxSize) :
    ¬ LinksTo (oneTaken k).links (.frame p) (.frame q) := by
  rw [LinksTo, oneTaken_links]
  split
  · simp
  · simp [oneFrame, singleState, hp, Link.null]

/-- The links that are left do no harm where nothing is on the list. -/
theorem calmFrames_oneTaken {k : ListIndex} (hk : k ≠ 0) (I : Set Node) (fs : List ℕ) :
    CalmFrames (oneTaken k) (singleLists 0 (pageSlot pageMaxSize)) I fs := by
  have hlist : ∃ k, Node.frame (pageSlot pageMaxSize) ∈
      (singleLists 0 (pageSlot pageMaxSize) k).map Node.frame := ⟨0, by simp [singleLists]⟩
  refine ⟨fun x hx ↦ ?_, List.pairwise_map.mpr (List.pairwise_of_forall fun p q ↦ ?_)⟩
  · obtain ⟨p, -, rfl⟩ := List.mem_map.mp hx
    rcases eq_or_ne p (pageSlot pageMaxSize) with rfl | hp
    · exact Or.inl hlist
    · refine Or.inr fun y _ ↦ ?_
      rw [oneTaken_links k (.frame p)]
      split
      · refine ⟨fun hy ↦ ?_, by simp⟩
        obtain rfl := Option.some.inj hy
        rw [oneTaken_links, if_neg (by simp)]
        simp [oneFrame, singleState, hk, Link.null]
      · simp [oneFrame, singleState, hp, Link.null]
  · rcases eq_or_ne q (pageSlot pageMaxSize) with rfl | hq
    · exact Or.inl hlist
    · rcases eq_or_ne p (pageSlot pageMaxSize) with rfl | hp
      · exact Or.inr (Or.inl ⟨hlist, Or.inr (not_linksTo_oneTaken k hq)⟩)
      · refine Or.inr (Or.inr ⟨fun j hj ↦ ?_, Or.inr (not_linksTo_oneTaken k hp)⟩)
        obtain ⟨x, hx, hxp⟩ := List.mem_map.mp hj
        rw [Node.frame.injEq] at hxp
        have hmem : p ∈ Listed (singleLists 0 (pageSlot pageMaxSize)) := ⟨j, hxp ▸ hx⟩
        rw [listed_singleLists] at hmem
        exact hp hmem

/-- The frame at 4 MiB, a block of its own, is reserved for good. -/
theorem neverReturned_iff_oneTaken : ∃ fuel s',
    pmMarkPagesUsed fuel (oneTaken 1) listedFrame (alignDown listedFrame.start archPageSize) =
      .ok s' ∧ NeverReturned s' listedFrame := by
  have hpresent : ∀ p ∈ rangeSlots listedFrame, (oneTaken 1).present p = true := fun _ _ ↦ rfl
  obtain ⟨fuel, hrun⟩ := (pmMarkPagesUsed_iff (by decide) (by decide)).mpr ⟨hpresent, rfl⟩
  have hplace : InPlace oneFrame (singleLists 0 (pageSlot pageMaxSize)) :=
    inPlace_singleState (by simp) (show pageMaxSize < describedEnd by decide) rfl
  obtain ⟨hiff, hcalm⟩ :=
    neverReturned_iff (s := oneTaken 1) (wellFormed_oneTaken 1) hplace (by decide) hrun
  refine ⟨fuel, _, hrun, (hiff (hcalm (calmFrames_oneTaken (by decide) _ _))).mpr ?_⟩
  rw [listed_singleLists]
  rintro p rfl hlt
  have haddr : ((oneTaken 1).page (pageSlot pageMaxSize)).addr = pageMaxSize := by
    simp [oneTaken, oneFrame, singleState]
  rw [haddr] at hlt
  exact absurd hlt (by decide)

/-- The second frame of `oneBlock`. -/
def secondFrame : Range := ⟨pageMaxSize + archPageSize, pageMaxSize + 2 * archPageSize⟩

/-- **A reserved frame is handed out**: the second frame of a block that is free as a whole. -/
theorem reserved_frame_returned :
    WellFormed oneBlock (singleLists 10 (pageSlot pageMaxSize)) ∅ ∧
    ∃ fuel s', pmMarkPagesUsed fuel oneBlock secondFrame
        (alignDown secondFrame.start archPageSize) = .ok s' ∧ ¬ NeverReturned s' secondFrame := by
  have hplace : InPlace oneBlock (singleLists 10 (pageSlot pageMaxSize)) :=
    inPlace_singleState (by simp [blockPages]) (show pageMaxSize < describedEnd by decide) rfl
  have haddr : oneBlock.block (pageSlot pageMaxSize) = ⟨pageMaxSize, 10⟩ := by
    simp [PmState.block, oneBlock, singleState, blockPages]
  have hpresent : ∀ p ∈ rangeSlots secondFrame, oneBlock.present p = true := fun _ _ ↦ rfl
  obtain ⟨fuel, hrun⟩ := (pmMarkPagesUsed_iff (by decide) (by decide)).mpr ⟨hpresent, rfl⟩
  refine ⟨wellFormed_oneBlock, fuel, _, hrun, fun hnever ↦ ?_⟩
  have hleaves := wellFormed_oneBlock.sound.leavesLists
    (nodup_rangeSlots secondFrame) (calmFrames_singleState _ _)
  obtain ⟨R, t, hcalls, hmem⟩ := exists_allocs_of_addr_lt wellFormed_oneBlock hplace
    (show secondFrame.start ≤ _ by decide) (by decide) hleaves
    (show pageSlot pageMaxSize ∈ Listed _ by rw [listed_singleLists]; rfl)
    (by rw [show (oneBlock.page (pageSlot pageMaxSize)).addr = pageMaxSize from
      congrArg Block.base haddr]; decide)
  rw [haddr] at hmem
  have hstart : secondFrame.start ∈ (Block.mk pageMaxSize 10).span archPageSize := by
    rw [Block.mem_span]; decide
  exact Set.disjoint_left.mp (hnever R t hcalls _ hmem) hstart ⟨le_refl _, by decide⟩

end CubikOS

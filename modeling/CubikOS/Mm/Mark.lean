import CubikOS.Mm.Request
import CubikOS.Mm.Reserve

/-!
# What a reservation marks

`PM_MarkPagesUsed` once more, on any state with proper lists.

Which flags a call clears is plain: those of all frames from `ALIGN_DOWN(start)` to
`ALIGN_UP(end)`, that one included.  What it does to the lists depends on the links the descriptors
carry.  Where what an earlier time left of them is calm, the call shortens the list of every frame
that heads a block, while the counters stay.
-/

set_option autoImplicit false

namespace CubikOS

open Intrusive Buddy

/-! ## Exactly the range -/

/-- The frame at `c` has an address in common with the range. -/
def Meets (range : Range) (c : ℕ) : Prop :=
  ∃ x, c ≤ x ∧ x < c + archPageSize ∧ range.start ≤ x ∧ x < range.stop

section Range

variable {range : Range}

/-- A frame that meets the range is one of those the call goes through. -/
theorem Meets.bounds {c : ℕ} (hc : Meets range c) (hal : archPageSize ∣ c)
    (hle : range.start ≤ range.stop) (hstop : range.stop < 2 ^ 63) :
    alignDown range.start archPageSize ≤ c ∧ c ≤ alignUp range.stop archPageSize := by
  obtain ⟨x, h1, h2, h3, h4⟩ := hc
  obtain ⟨⟨a, ha⟩, -, hlow, -, hhigh, -⟩ := range_bounds hle hstop
  obtain ⟨b, rfl⟩ := hal
  dsimp only [archPageSize] at *
  omega

end Range

/-- What is expected of `PM_MarkPagesUsed(range)`: it returns; it clears the flag of every frame
that meets the range and has a descriptor; it leaves all other flags alone; and every counter is
the length of its list. -/
def MarksExactly (s : PmState) (range : Range) : Prop :=
  ∃ s', (∃ fuel, pmMarkPagesUsed fuel s range (alignDown range.start archPageSize) = .ok s') ∧
    (∀ c, archPageSize ∣ c → c < 2 ^ 64 → Meets range c ∧ s.present (pageSlot c) = true →
      (s'.page (pageSlot c)).free = false) ∧
    (∀ c, archPageSize ∣ c → c < 2 ^ 64 → ¬ (Meets range c ∧ s.present (pageSlot c) = true) →
      (s'.page (pageSlot c)).free = (s.page (pageSlot c)).free) ∧
    ∀ k, ∃ l, Walk s'.links (.handle k) l ∧ s'.count k = l.length

theorem OrderedLists.freeLists {s : PmState} {L : ListIndex → List ℕ} (hL : OrderedLists s L) :
    FreeLists s L where
  chain := hL.chain
  nodup k := (List.nodup_cons.mp (hL.chain k).walk.nodup).2
  unique i j x hi hj := by
    obtain ⟨p, hp, rfl⟩ := List.mem_map.mp hi
    obtain ⟨q, hq, heq⟩ := List.mem_map.mp hj
    rw [Node.frame.inj heq] at hq
    exact Fin.ext ((hL.order i p hp).symm.trans (hL.order j p hq))
  head_notMem i j := by simp
  head_inj i j hij := Node.handle.inj hij

/-- Every frame the call comes to has a descriptor, and those that do not meet the range are not
marked free. -/
def Covered (s : PmState) (range : Range) : Prop :=
  (∀ p ∈ rangeSlots range, s.present p = true) ∧
    ∀ c, archPageSize ∣ c → alignDown range.start archPageSize ≤ c →
      c ≤ alignUp range.stop archPageSize → ¬ Meets range c → (s.page (pageSlot c)).free = false

section Exact

variable {s : PmState} {L : ListIndex → List ℕ} {range : Range}

/-- A call that does what is expected returns, and has no flag to clear that it should not. -/
theorem MarksExactly.covered (hle : range.start ≤ range.stop) (hstop : range.stop < 2 ^ 63)
    (hexact : MarksExactly s range) : Covered s range := by
  obtain ⟨s', hrun, -, hkept, -⟩ := hexact
  obtain ⟨hpresent, rfl⟩ := (pmMarkPagesUsed_iff hle hstop).mp hrun
  refine ⟨hpresent, fun c hal h1 h2 hmeets ↦ ?_⟩
  have hmem : pageSlot c ∈ rangeSlots range :=
    (mem_rangeSlots hle hstop).mpr ⟨c, h1, h2, hal, rfl⟩
  obtain ⟨-, -, -, -, -, hhigh, -⟩ := range_bounds hle hstop
  rw [← hkept c hal (by dsimp only [archPageSize] at *; omega) fun h ↦ hmeets h.1,
    foldl_markState_free, if_pos hmem]

/-- A covered call does what is expected if the counters stay right. -/
theorem Covered.marksExactly (hle : range.start ≤ range.stop) (hstop : range.stop < 2 ^ 63)
    (hcov : Covered s range) (hcount : ∀ k, ∃ l,
      Walk ((rangeSlots range).foldl markState s).links (.handle k) l ∧ s.count k = l.length) :
    MarksExactly s range := by
  obtain ⟨hpresent, hother⟩ := hcov
  refine ⟨_, (pmMarkPagesUsed_iff hle hstop).mpr ⟨hpresent, rfl⟩, fun c hal _ hc ↦ ?_,
    fun c hal hlt hc ↦ ?_, fun k ↦ by rw [foldl_markState_count]; exact hcount k⟩
  · obtain ⟨h1, h2⟩ := hc.1.bounds hal hle hstop
    rw [foldl_markState_free, if_pos ((mem_rangeSlots hle hstop).mpr ⟨c, h1, h2, hal, rfl⟩)]
  · rw [foldl_markState_free]
    split
    · rename_i hmem
      obtain ⟨x, h1, h2, hax, hx⟩ := (mem_rangeSlots hle hstop).mp hmem
      obtain ⟨-, -, -, -, -, hhigh, -⟩ := range_bounds hle hstop
      obtain rfl := pageSlot_inj_of_lt hlt (by dsimp only [archPageSize] at *; omega) hal hax hx
      exact (hother c hal h1 h2 fun h ↦ hc ⟨h, hpresent _ hmem⟩).symm
    · rfl

/-- The lists after the call, when what it comes to is calm. -/
theorem walk_foldl_markState (hL : FreeLists s L)
    (hcalm : CalmFrames s L ∅ (rangeSlots range)) (k : ListIndex) :
    Walk ((rangeSlots range).foldl markState s).links (.handle k)
      (((L k).diff (rangeSlots range)).map .frame) :=
  ((hL.foldl_mark (nodup_rangeSlots range) (by simp) hcalm).1.chain k).walk

/-- A counter that nothing is taken off is right exactly if nothing leaves its list. -/
theorem length_diff_iff (hL : FreeLists s L) (fs : List ℕ) :
    (∀ k, (L k).length = ((L k).diff fs).length) ↔ ∀ p ∈ fs, p ∉ Listed L := by
  constructor
  · rintro hlen p hp ⟨k, hk⟩
    rw [← (List.diff_sublist (L k) fs).eq_of_length (hlen k).symm] at hk
    exact ((hL.nodup_list k).mem_sdiff_iff.mp hk).2 hp
  · intro hnone k
    rw [(hL.nodup_list k).sdiff_eq_filter, List.filter_eq_self.mpr]
    exact fun p hp ↦ decide_eq_true fun hmem ↦ hnone p hmem ⟨k, hp⟩

/-- **When a reservation marks exactly its range.**  It does so only if every frame it comes to has
a descriptor and those that do not meet the range are not free.  Where the links that descriptors
are left with are calm it does so if and only if, besides, none of the frames heads a listed
block. -/
theorem pmMarkPagesUsed_exact_iff (hL : OrderedLists s L) (hle : range.start ≤ range.stop)
    (hstop : range.stop < 2 ^ 63) :
    (MarksExactly s range → Covered s range) ∧
    (CalmFrames s L ∅ (rangeSlots range) →
      (MarksExactly s range ↔ Covered s range ∧ ∀ p ∈ rangeSlots range, p ∉ Listed L)) := by
  refine ⟨MarksExactly.covered hle hstop, fun hcalm ↦ ?_⟩
  have hwalk := walk_foldl_markState hL.freeLists hcalm
  rw [← length_diff_iff hL.freeLists]
  constructor
  · intro hexact
    refine ⟨hexact.covered hle hstop, fun k ↦ ?_⟩
    obtain ⟨s', hrun, -, -, hcount⟩ := hexact
    obtain ⟨-, rfl⟩ := (pmMarkPagesUsed_iff hle hstop).mp hrun
    obtain ⟨l, hw, hlen⟩ := hcount k
    rw [hw.unique (hwalk k), foldl_markState_count, hL.count, List.length_map] at hlen
    exact hlen
  · rintro ⟨hcov, hlen⟩
    refine hcov.marksExactly hle hstop fun k ↦ ⟨_, hwalk k, ?_⟩
    rw [hL.count, List.length_map, hlen k]

end Exact

/-! ### Two ranges of one frame -/

theorem rangeSlots_secondFrame : rangeSlots secondFrame =
    [pageSlot (pageMaxSize + archPageSize), pageSlot (pageMaxSize + 2 * archPageSize)] := by decide

/-- Reserving a frame that was taken off its list before does what it should. -/
theorem pmMarkPagesUsed_exact_iff_secondFrame :
    OrderedLists (oneTaken 1) (singleLists 0 (pageSlot pageMaxSize)) ∧
      MarksExactly (oneTaken 1) secondFrame := by
  have hL := (wellFormed_oneTaken 1).orderedLists
  have hslots : ∀ p ∈ rangeSlots secondFrame, p ≠ pageSlot pageMaxSize := by
    rw [rangeSlots_secondFrame]; decide
  have hcalm := calmFrames_oneTaken (show (1 : ListIndex) ≠ 0 by decide) ∅ (rangeSlots secondFrame)
  refine ⟨hL, ((pmMarkPagesUsed_exact_iff hL (by decide) (by decide)).2 hcalm).mpr
    ⟨⟨fun _ _ ↦ rfl, fun c hal h1 h2 _ ↦ ?_⟩, fun p hp ↦ ?_⟩⟩
  · have hmem := (mem_rangeSlots (by decide) (by decide)).mpr ⟨c, h1, h2, hal, rfl⟩
    have hpage : (oneTaken 1).page (pageSlot c) = Pageframe.zero := if_neg (hslots _ hmem)
    rw [hpage]; rfl
  · rw [listed_singleLists]
    exact hslots p hp

/-- **Reserving a listed frame leaves its counter behind**: the list is empty and counts one. -/
theorem pmMarkPagesUsed_miscounts :
    OrderedLists oneFrame (singleLists 0 (pageSlot pageMaxSize)) ∧
      ¬ MarksExactly oneFrame listedFrame := by
  have hL := wellFormed_oneFrame.orderedLists
  refine ⟨hL, ?_⟩
  rintro ⟨s', hrun, -, -, hcount⟩
  obtain ⟨-, rfl⟩ := (pmMarkPagesUsed_iff (by decide) (by decide)).mp hrun
  obtain ⟨l, hw, hlen⟩ := hcount 0
  have hwalk := walk_foldl_markState hL.freeLists
    (calmFrames_singleState ∅ (rangeSlots listedFrame)) 0
  have hempty : (singleLists 0 (pageSlot pageMaxSize) 0).diff (rangeSlots listedFrame) = [] := by
    decide
  rw [hempty] at hwalk
  rw [hw.unique hwalk, foldl_markState_count, hL.count] at hlen
  exact absurd hlen (by decide)

end CubikOS

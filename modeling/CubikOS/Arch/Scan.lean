import CubikOS.Lib.Run
import CubikOS.Arch.Bitmap

/-!
# What the scan of the bitmap finds

`VM_AllocatePages` on any bitmap of the kernel process.

The scan is a first-fit search over the pages.  What it takes for free are the pages whose mask
meets no set bit (`Clear`), it starts no run at page 0 unless one page is enough, and it passes
over the pages of a word with all bits set without ending a run.  `scanMarks_first` says exactly
what it returns in these terms.

A page has a mark bit of its own, and its mask is another thing (`clear_iff`).  The two halves of
a word share their masks, so a page of the upper half is judged by the bit 32 below its own, and
the last page of either half by the whole upper half.
-/

set_option autoImplicit false

namespace CubikOS

open Loop Runs

/-! ## Mark bits and masks -/

/-- The pages of the kernel space. -/
abbrev kernelPages : ℕ := 16 * 32768

/-- The mark bit of a page: its chunk, its word in the chunk and its bit in the word. -/
def markBit (m : Words) (page : ℕ) : Bool :=
  (m (chunkStart m (page / 32768) + page / 64 % 512)).getLsbD (page % 64)

theorem markBit_eq (m : Words) (page : ℕ) :
    markBit m page = (m (page / 64)).getLsbD (page % 64) := by
  rw [markBit, chunkStart, show 512 * (page / 32768) + page / 64 % 512 = page / 64 by omega]

/-- The pages of a word with all bits set. -/
def Full (m : Words) (page : ℕ) : Prop := m (page / 64) = BitVec.allOnes 64

instance (m : Words) (page : ℕ) : Decidable (Full m page) := inferInstanceAs (Decidable (_ = _))

theorem Full.markBit {m : Words} {page : ℕ} (h : Full m page) : markBit m page = true := by
  rw [markBit_eq, h, BitVec.getLsbD_allOnes]
  exact decide_eq_true (Nat.mod_lt _ (by decide))

/-- The bits of a mask: one in the lower half of the word, and with the topmost of them the whole
upper half. -/
theorem getLsbD_bitMask {b j : ℕ} (hj : j < 64) :
    (bitMask b).getLsbD j = decide (j = b % 32 ∨ b % 32 = 31 ∧ 31 ≤ j) := by
  have hb : b % 32 < 32 := Nat.mod_lt _ (by decide)
  have hshift : ∀ i, i < 32 → ((1#32) <<< (b % 32)).getLsbD i = decide (i = b % 32) := by
    intro i hi
    rw [BitVec.getLsbD_shiftLeft, BitVec.getLsbD_one, Bool.eq_iff_iff]
    simp only [Bool.and_eq_true, Bool.not_eq_true', decide_eq_true_eq, decide_eq_false_iff_not]
    omega
  rw [bitMask, BitVec.getLsbD_signExtend, decide_eq_true hj, Bool.true_and]
  split
  · rename_i hlow
    rw [hshift j hlow, decide_eq_decide]
    omega
  · rename_i hhigh
    rw [BitVec.msb_eq_getLsbD_last, hshift 31 (by decide), decide_eq_decide]
    omega

/-- **When a page reads as free**: the bits of its mask are clear. -/
theorem clear_iff {m : Words} {page : ℕ} : Clear m page ↔
    ∀ x, x / 64 = page / 64 → (x % 64 = page % 32 ∨ page % 32 = 31 ∧ 31 ≤ x % 64) →
      markBit m x = false := by
  have hmod : page % 64 % 32 = page % 32 := Nat.mod_mod_of_dvd _ (by decide)
  rw [Clear]
  constructor
  · intro h x hx hbit
    have hlt : x % 64 < 64 := Nat.mod_lt _ (by decide)
    have hand := congrArg (fun w ↦ w.getLsbD (x % 64)) h
    simp only [BitVec.getLsbD_and, BitVec.getLsbD_zero] at hand
    rw [getLsbD_bitMask hlt, hmod, decide_eq_true hbit, Bool.and_true] at hand
    rw [markBit_eq, hx, hand]
  · intro h
    refine BitVec.eq_of_getLsbD_eq fun j hj ↦ ?_
    rw [BitVec.getLsbD_and, BitVec.getLsbD_zero, getLsbD_bitMask hj, hmod]
    by_cases hbit : j = page % 32 ∨ page % 32 = 31 ∧ 31 ≤ j
    · have hx := h (64 * (page / 64) + j) (by omega) (by
        rwa [show (64 * (page / 64) + j) % 64 = j by omega])
      rw [markBit_eq, show (64 * (page / 64) + j) / 64 = page / 64 by omega,
        show (64 * (page / 64) + j) % 64 = j by omega] at hx
      rw [hx, Bool.false_and]
    · rw [decide_eq_false hbit, Bool.and_false]

section Masks

variable {m : Words} {x y : ℕ}

/-- In the lower half of a word the mask has the page's own bit. -/
theorem Clear.markBit_low (h : Clear m x) (hx : x % 64 < 32) : markBit m x = false :=
  clear_iff.mp h x rfl (Or.inl (by omega))

/-- The mask of the last page of a half has the upper half. -/
theorem Clear.markBit_upper (h : Clear m y) (hy : y % 32 = 31) (hword : x / 64 = y / 64)
    (hx : 32 ≤ x % 64) : markBit m x = false :=
  clear_iff.mp h x hword (Or.inr ⟨hy, by omega⟩)

/-- Pages that share a mask read the same. -/
theorem Clear.of_mod_eq (h : Clear m x) (hword : x / 64 = y / 64) (hmod : x % 32 = y % 32) :
    Clear m y := by
  rw [clear_iff] at h ⊢
  rw [← hword, ← hmod]
  exact h

end Masks

/-! ## The scan is a first-fit search -/

/-- No run starts at page 0, whose address is zero, unless one page is enough. -/
def MayStart (amount v : ℕ) : Prop := 0 < v ∨ amount = 1

/-- `amount` pages from `v` on that read as free, up to `t`, full words left out of account. -/
abbrev PageRun (m : Words) (amount v t : ℕ) : Prop :=
  Stretch (MayStart amount) (Clear m) (Full m) amount v t

/-- The first of them to end. -/
abbrev FirstRun (m : Words) (amount v t : ℕ) : Prop :=
  First (MayStart amount) (Clear m) (Full m) amount v t

/-- One page, unless its word is skipped. -/
def visitPage (m : Words) (amount page : ℕ) (st : Scan) : Except ℕ Scan :=
  if Full m page then .ok st else pageStep m amount page st

/-- The scan page by page, on any bitmap. -/
theorem scanMarks_eq_visit (m : Words) (amount : ℕ) :
    scanMarks chunkStart m amount = forRange kernelPages (visitPage m amount) ⟨0, 0⟩ := by
  rw [scanMarks_eq, show kernelPages = 64 * 8192 from rfl, ← forRange_mul]
  refine forRange_congr fun w _ st ↦ ?_
  have hword : ∀ b, b < 64 → (64 * w + b) / 64 = w := fun b hb ↦ by omega
  by_cases hfull : m w = BitVec.allOnes 64
  · obtain ⟨s', hs', rfl⟩ := forRange_eq_ok (f := fun b ↦ visitPage m amount (64 * w + b)) (n := 64)
      (P := fun _ t ↦ t = st) rfl fun b hb t ht ↦ ⟨t, if_pos (by
        rw [Full, hword b hb]; exact hfull), ht⟩
    rw [hs', wordStep, scanWord, if_pos hfull]
  · rw [wordStep_eq hfull]
    refine forRange_congr fun b hb t ↦ ?_
    rw [visitPage, if_neg]
    rw [Full, hword b hb]
    exact hfull

/-- What the scan knows when it has come to `page`. -/
def Searches (m : Words) (amount page : ℕ) (st : Scan) : Prop :=
  st.virt = 0 ∧ Idle (MayStart amount) (Clear m) (Full m) amount page ∨
  ∃ v, st.virt = v * archPageSize ∧
    Active (MayStart amount) (Clear m) (Full m) amount page v st.amountLeft

section Scan

variable {m : Words} {amount page : ℕ} {st : Scan}

theorem Searches.before (h : Searches m amount page st) (v t : ℕ) (hv : PageRun m amount v t) :
    page < t := by
  rcases h with ⟨-, h⟩ | ⟨u, -, h⟩
  · exact h.before v t hv
  · exact h.before v t hv

/-- A run that is being counted has an address. -/
theorem virt_ne_zero {v left : ℕ}
    (h : Active (MayStart amount) (Clear m) (Full m) amount page v left) :
    v * archPageSize ≠ 0 := by
  have hlt := h.left_lt
  have hpos := h.lacks_pos
  have hv : 0 < v := h.run.begins.resolve_right (by omega)
  exact Nat.mul_ne_zero (by omega) (by decide)

/-- A page that reads as free. -/
theorem visitPage_clear (h1 : 1 ≤ amount) (hlt : amount < 2 ^ 64) (h : Searches m amount page st)
    (hclear : Clear m page) :
    (∀ st', pageStep m amount page st = .ok st' → Searches m amount (page + 1) st') ∧
      ∀ e, pageStep m amount page st = .error e →
        ∃ v, FirstRun m amount v (page + 1) ∧ e = v * archPageSize := by
  rcases h with ⟨hst, hidle⟩ | ⟨v, hst, hactive⟩
  · rw [pageStep_start hclear hst h1 hlt]
    split
    · rename_i hone
      subst hone
      refine ⟨fun st' h ↦ by simp at h, fun e h ↦ ⟨page, hidle.finish (Or.inr rfl) hclear, ?_⟩⟩
      exact (Except.error.inj h).symm
    · rename_i hone
      refine ⟨fun st' h ↦ ?_, fun e h ↦ by simp at h⟩
      obtain rfl := Except.ok.inj h
      rcases Nat.eq_zero_or_pos page with rfl | hpos
      · -- page 0: its address cannot be told from no run
        refine Or.inl ⟨Nat.zero_mul _, hidle.pass fun h0 ↦ ?_⟩
        exact h0.elim (lt_irrefl 0) hone
      · exact Or.inr ⟨page, rfl, hidle.begin (Or.inl hpos) hclear (by omega)⟩
  · have hleft := hactive.left_lt
    rw [pageStep_open hclear (by rw [hst]; exact virt_ne_zero hactive) hactive.lacks_pos (by omega)]
    split
    · rename_i hone
      rw [hone] at hactive
      refine ⟨fun st' h ↦ by simp at h, fun e h ↦ ⟨v, hactive.finish hclear, ?_⟩⟩
      rw [← hst, Except.error.inj h]
    · rename_i hone
      refine ⟨fun st' h ↦ ?_, fun e h ↦ by simp at h⟩
      obtain rfl := Except.ok.inj h
      have hpos := hactive.lacks_pos
      exact Or.inr ⟨v, hst, hactive.next hclear (by omega)⟩

/-- **One page.** -/
theorem visitPage_spec (h1 : 1 ≤ amount) (hlt : amount < 2 ^ 64) (h : Searches m amount page st) :
    (∀ st', visitPage m amount page st = .ok st' → Searches m amount (page + 1) st') ∧
      ∀ e, visitPage m amount page st = .error e →
        ∃ v, FirstRun m amount v (page + 1) ∧ e = v * archPageSize := by
  rw [visitPage]
  split
  · rename_i hfull
    have hused : ¬ Clear m page := not_clear_of_allOnes hfull
    refine ⟨fun st' hok ↦ ?_, fun e h ↦ by simp at h⟩
    obtain rfl := Except.ok.inj hok
    rcases h with ⟨hst, hidle⟩ | ⟨v, hst, hactive⟩
    · exact Or.inl ⟨hst, hidle.skipped hused⟩
    · exact Or.inr ⟨v, hst, hactive.skipped hused hfull⟩
  · rename_i hfull
    by_cases hclear : Clear m page
    · exact visitPage_clear h1 hlt h hclear
    · rw [pageStep_used hclear]
      refine ⟨fun st' hok ↦ ?_, fun e h ↦ by simp at h⟩
      obtain rfl := Except.ok.inj hok
      exact Or.inl ⟨rfl, Idle.of_used h.before hclear hfull⟩

/-- **What the scan returns**: the first run, or nothing if there is none. -/
theorem scanMarks_first (h1 : 1 ≤ amount) (hlt : amount < 2 ^ 64) :
    (∀ st, scanMarks chunkStart m amount = .ok st →
      ∀ v t, PageRun m amount v t → kernelPages < t) ∧
    ∀ e, scanMarks chunkStart m amount = .error e →
      ∃ v t, FirstRun m amount v t ∧ t ≤ kernelPages ∧ e = v * archPageSize := by
  rw [scanMarks_eq_visit]
  have hscan := forRange_inv (n := kernelPages) (f := visitPage m amount) (s := ⟨0, 0⟩)
    (P := Searches m amount) (Q := fun e ↦ ∃ v t, FirstRun m amount v t ∧ t ≤ kernelPages ∧
      e = v * archPageSize) (Or.inl ⟨rfl, Idle.zero⟩) fun page hpage st hst ↦ by
    obtain ⟨hok, herror⟩ := visitPage_spec h1 hlt hst
    refine ⟨hok, fun e he ↦ ?_⟩
    obtain ⟨v, hv, rfl⟩ := herror e he
    exact ⟨v, page + 1, hv, hpage, rfl⟩
  exact ⟨fun st hst ↦ (hscan.1 st hst).before, hscan.2⟩

end Scan

/-! ## What a call returns -/

section Call

variable {m : Words} {amount : ℕ}

theorem kernelAddr_ne_zero (v : ℕ) : kernelVirtualBase + v * archPageSize ≠ 0 := by
  dsimp only [kernelVirtualBase]
  omega

theorem vmAllocatePages_of_ok {st : Scan} (h : scanMarks chunkStart m amount = .ok st) :
    (vmAllocatePages chunkStart m amount).1 = 0 := by
  unfold vmAllocatePages
  rw [h]

theorem vmAllocatePages_of_error {v : ℕ} (hv : v < kernelPages)
    (h : scanMarks chunkStart m amount = .error (v * archPageSize)) :
    (vmAllocatePages chunkStart m amount).1 = kernelVirtualBase + v * archPageSize := by
  unfold vmAllocatePages
  rw [h]
  dsimp only [kernelVirtualBase, archPageSize, kernelPages] at *
  omega

/-- The address a call returns. -/
theorem vmAllocatePages_cases (h1 : 1 ≤ amount) (hlt : amount < 2 ^ 64) :
    ((vmAllocatePages chunkStart m amount).1 = 0 ∧
      ∀ v t, PageRun m amount v t → kernelPages < t) ∨
    ∃ v t, FirstRun m amount v t ∧ t ≤ kernelPages ∧
      (vmAllocatePages chunkStart m amount).1 = kernelVirtualBase + v * archPageSize := by
  obtain ⟨hok, herror⟩ := scanMarks_first (m := m) h1 hlt
  cases hscan : scanMarks chunkStart m amount with
  | ok st => exact Or.inl ⟨vmAllocatePages_of_ok hscan, hok st hscan⟩
  | error e =>
    obtain ⟨v, t, hfirst, ht, rfl⟩ := herror e hscan
    have hv : v < kernelPages := Nat.lt_of_lt_of_le hfirst.lt ht
    exact Or.inr ⟨v, t, hfirst, ht, vmAllocatePages_of_error hv hscan⟩

/-! ### Whether it is free -/

/-- What is expected of a call that returns an address: the mark bits of the pages from there on
were clear. -/
def ReturnsFree (m : Words) (amount : ℕ) : Prop :=
  ∀ virt m', vmAllocatePages chunkStart m amount = (virt, m') → virt ≠ 0 → ∀ i, i < amount →
    markBit m ((virt - kernelVirtualBase) / archPageSize + i) = false

/-- In terms of the first run. -/
theorem returnsFree_iff (h1 : 1 ≤ amount) (hlt : amount < 2 ^ 64) : ReturnsFree m amount ↔
    ∀ v t, FirstRun m amount v t → t ≤ kernelPages →
      ∀ x, v ≤ x → x < v + amount → markBit m x = false := by
  rcases vmAllocatePages_cases h1 hlt with ⟨hzero, hnone⟩ | ⟨v, t, hfirst, ht, hvirt⟩
  · constructor
    · intro _ v t hv ht
      have := hnone v t hv.toStretch
      omega
    · intro _ virt m' hcall hvirt
      rw [hcall] at hzero
      exact absurd hzero hvirt
  · have hpage : (kernelVirtualBase + v * archPageSize - kernelVirtualBase) / archPageSize = v := by
      dsimp only [kernelVirtualBase, archPageSize]
      omega
    constructor
    · intro hfree v' t' hv' _ x hx1 hx2
      obtain ⟨rfl, rfl⟩ := hfirst.unique hv'
      have hne : (vmAllocatePages chunkStart m amount).1 ≠ 0 := by
        rw [hvirt]
        exact kernelAddr_ne_zero v
      have hx := hfree _ _ Prod.mk.eta.symm hne (x - v) (by omega)
      rwa [hvirt, hpage, Nat.add_sub_cancel' hx1] at hx
    · intro hrun virt m' hcall _ i hi
      rw [hcall] at hvirt
      dsimp only at hvirt
      rw [hvirt, hpage]
      exact hrun v t hfirst ht _ (by omega) (by omega)

/-- **The pages of the first run**, if no full word comes in between: their mark bits are clear,
unless they are pages of the upper half of the first word. -/
theorem FirstRun.markBit {v t : ℕ} (h1 : 1 ≤ amount) (hv : FirstRun m amount v t)
    (hgap : ∀ x, v ≤ x → x < v + amount → ¬ Full m x) {x : ℕ} (hx1 : v ≤ x)
    (hx2 : x < v + amount) (hcorner : ¬ (v = 32 ∧ amount ≤ 31)) : markBit m x = false := by
  have hle : v + amount ≤ t := hv.toStretch.le
  have hclear : ∀ y, v ≤ y → y < v + amount → Clear m y := fun y hy1 hy2 ↦
    (hv.mem y hy1 (by omega)).resolve_right (hgap y hy1 hy2)
  rcases Nat.lt_or_ge (x % 64) 32 with hlow | hhigh
  · exact (hclear x hx1 hx2).markBit_low hlow
  · -- the last page of the lower half, or that of the upper half, is in the run
    by_cases hlower : v ≤ 64 * (x / 64) + 31
    · exact (hclear (64 * (x / 64) + 31) hlower (by omega)).markBit_upper (by omega) (by omega)
        hhigh
    by_cases hupper : 64 * (x / 64) + 63 < v + amount
    · exact (hclear (64 * (x / 64) + 63) (by omega) hupper).markBit_upper (by omega) (by omega)
        hhigh
    -- or the pages 32 below are a run too, and it ends before this one
    have hbelow : PageRun m amount (v - 32) (v - 32 + amount) := by
      refine Stretch.of_forall (by rw [MayStart]; omega) h1 fun y hy1 hy2 ↦ ?_
      exact (hclear (y + 32) (by omega) (by omega)).of_mod_eq (by omega) (by omega)
    have hend := hv.first _ _ hbelow
    omega

/-- **When a call returns free pages only**: if, of the first run, no page is in a full word, and,
should it start at page 32 and be no longer than 31 pages, the mark bits of these pages are
clear. -/
theorem vmAllocatePages_free_iff (h1 : 1 ≤ amount) (hlt : amount < 2 ^ 64) :
    ReturnsFree m amount ↔ ∀ v t, FirstRun m amount v t → t ≤ kernelPages →
      (∀ x, v ≤ x → x < v + amount → ¬ Full m x) ∧
      (v = 32 → amount ≤ 31 → ∀ x, 32 ≤ x → x < 32 + amount → markBit m x = false) := by
  rw [returnsFree_iff h1 hlt]
  constructor
  · intro hfree v t hv ht
    refine ⟨fun x hx1 hx2 hfull ↦ ?_, fun h32 _ ↦ ?_⟩
    · have hx := hfree v t hv ht x hx1 hx2
      rw [hfull.markBit] at hx
      simp at hx
    · subst h32
      exact hfree 32 t hv ht
  · intro hcond v t hv ht x hx1 hx2
    obtain ⟨hgap, hcorner⟩ := hcond v t hv ht
    by_cases h32 : v = 32 ∧ amount ≤ 31
    · exact hcorner h32.1 h32.2 x (by omega) (by omega)
    · exact hv.markBit h1 hgap hx1 hx2 h32

/-- An empty bitmap. -/
theorem vmAllocatePages_free_iff_empty : ReturnsFree (fun _ ↦ 0#64) 3 := by
  have hbit : ∀ x, markBit (fun _ ↦ 0#64) x = false := fun x ↦ BitVec.getLsbD_zero
  refine (vmAllocatePages_free_iff (by decide) (by decide)).mpr fun v t _ _ ↦
    ⟨fun x _ _ hfull ↦ ?_, fun _ _ x _ _ ↦ hbit x⟩
  have hx := hfull.markBit
  rw [hbit] at hx
  simp at hx

/-- Everything is in use but the first two pages. -/
def firstTwoFree : Words := fun w ↦ if w = 0 then 0xFFFFFFFFFFFFFFFC#64 else BitVec.allOnes 64

/-- **Pages in use are returned**: asked for two pages, a call returns pages 32 and 33. -/
theorem vmAllocatePages_returns_used :
    (vmAllocatePages chunkStart firstTwoFree 2).1 = kernelVirtualBase + 32 * archPageSize ∧
      markBit firstTwoFree 32 = true ∧ markBit firstTwoFree 33 = true ∧
      ¬ ReturnsFree firstTwoFree 2 := by
  have hscan : scanMarks chunkStart firstTwoFree 2 = .error (32 * archPageSize) := by
    rw [scanMarks_eq]
    exact forRange_error_mono (show 1 ≤ 8192 by decide) rfl
  have hvirt := vmAllocatePages_of_error (by decide) hscan
  refine ⟨hvirt, by decide, by decide, fun hfree ↦ ?_⟩
  have hx := hfree _ _ Prod.mk.eta.symm (by rw [hvirt]; decide) 0 (by decide)
  rw [hvirt] at hx
  exact absurd hx (by decide)

/-! ### Whether it is all there is -/

/-- There are `amount` pages in a row whose mark bits are clear. -/
def HasFreePages (m : Words) (amount : ℕ) : Prop :=
  ∃ p, p + amount ≤ kernelPages ∧ ∀ x, p ≤ x → x < p + amount → markBit m x = false

/-- **When a call that returns 0 is right to**: if there are no such pages, or if there is a run as
the scan counts them, since it does not return 0 then. -/
theorem vmAllocatePages_complete_iff (h1 : 1 ≤ amount) (hlt : amount < 2 ^ 64) :
    ((vmAllocatePages chunkStart m amount).1 = 0 → ¬ HasFreePages m amount) ↔
      ¬ HasFreePages m amount ∨ ∃ v t, PageRun m amount v t ∧ t ≤ kernelPages := by
  rcases vmAllocatePages_cases h1 hlt with ⟨hzero, hnone⟩ | ⟨v, t, hfirst, ht, hvirt⟩
  · constructor
    · intro h
      exact Or.inl (h hzero)
    · rintro (h | ⟨v, t, hv, ht⟩) _
      · exact h
      · have := hnone v t hv
        omega
  · constructor
    · intro _
      exact Or.inr ⟨v, t, hfirst.toStretch, ht⟩
    · intro _ hzero
      rw [hvirt] at hzero
      exact absurd hzero (kernelAddr_ne_zero v)

/-- An empty bitmap: three pages are there to be had, and are. -/
theorem vmAllocatePages_complete_iff_empty : HasFreePages (fun _ ↦ 0#64) 3 ∧
    (vmAllocatePages chunkStart (fun _ ↦ 0#64) 3).1 ≠ 0 := by
  have hfree : HasFreePages (fun _ ↦ 0#64) 3 := ⟨0, by decide, fun x _ _ ↦ BitVec.getLsbD_zero⟩
  have hrun : PageRun (fun _ ↦ 0#64) 3 1 4 :=
    Stretch.of_forall (Or.inl Nat.one_pos) (by decide) fun x _ _ ↦ BitVec.zero_and
  refine ⟨hfree, fun hzero ↦ ?_⟩
  exact (vmAllocatePages_complete_iff (by decide) (by decide)).mpr
    (Or.inr ⟨1, 4, hrun, by decide⟩) hzero hfree

/-- Everything is in use but the upper half of the first word. -/
def upperHalfFree : Words := fun w ↦ if w = 0 then 0x00000000FFFFFFFF#64 else BitVec.allOnes 64

/-- **Free pages are overlooked**: those of the upper half read as used if those of the lower half
are. -/
theorem vmAllocatePages_overlooks :
    (vmAllocatePages chunkStart upperHalfFree 1).1 = 0 ∧ HasFreePages upperHalfFree 1 := by
  have hused : ∀ x, ¬ Clear upperHalfFree x := by
    intro x
    rcases Nat.lt_or_ge x 64 with hx | hx
    · have hall : ∀ b : Fin 64, ¬ Clear upperHalfFree b := by decide
      exact hall ⟨x, hx⟩
    · exact not_clear_of_allOnes (if_neg (by omega))
  refine ⟨?_, 32, by decide, fun x hx1 hx2 ↦ ?_⟩
  · rcases vmAllocatePages_cases (m := upperHalfFree) (le_refl 1) (by decide) with h | h
    · exact h.1
    · obtain ⟨v, t, hv, -⟩ := h
      exact absurd hv.head (hused v)
  · rw [show x = 32 by omega]
    decide

end Call

end CubikOS

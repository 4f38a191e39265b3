import CubikOS.Lib.Loop
import CubikOS.Mm.Page

/-!
# The bitmap of kernel addresses

`VM_AllocatePages` and `VM_MarkPagesUsed` of `Kernel/arch/x86_64/paging.c`, for the kernel process.

The topmost 2 GiB are 16 chunks of 512 words of 64 bits, a page to a bit, all of them in the one
array `kernelPageMarks`; `m_VirtuaPagesBitmap` has a pointer to the first word of each chunk.  The
words are modelled by a function from their index in the array, and the pointers by a parameter
`chunk` that says which word a chunk starts with.  With `chunkStart` for it they lie apart from the
words and stay what they are; in the kernel they are the first of the words, and `ChunkTable` has
the functions for that.  The pointers of the kernel process are set once and are never null, so the
branch of `VM_AllocatePages` for a null pointer is left out.

The mask of a bit is `1 << bit_index`, an `int`.  The processor takes the shift modulo 32, and
`1 << 31` is negative, so that it has its upper 33 bits set when it meets a 64-bit word.  A page
and the one 32 pages further on in the same word therefore share a mask.
-/

set_option autoImplicit false

namespace CubikOS

open Loop

/-! ## The functions -/

/-- `KERNEL_VIRTUAL_BASE`: the first of the topmost 2 GiB. -/
abbrev kernelVirtualBase : ℕ := 0xFFFFFFFF80000000

/-- The words of the bitmap. -/
abbrev Words := ℕ → BitVec 64

/-- `1 << bit_index`, as it meets a 64-bit word. -/
def bitMask (bitIndex : ℕ) : BitVec 64 := ((1#32) <<< (bitIndex % 32)).signExtend 64

/-- What the loops of `VM_AllocatePages` carry along. -/
structure Scan where
  /-- Where the run being counted starts; zero when there is none. -/
  virt : ℕ
  /-- How many pages it still lacks. -/
  amountLeft : ℕ

/-- The innermost body of `VM_AllocatePages`: one bit of the word of the 64 pages from `page` on.
`.error` is the `return`, before the base is added. -/
def scanBit (word : BitVec 64) (page amount bitIndex : ℕ) (st : Scan) : Except ℕ Scan :=
  if word &&& bitMask bitIndex = 0#64 then
    let st := if st.virt = 0 then ⟨(page + bitIndex) * archPageSize, amount⟩ else st
    let amountLeft := (st.amountLeft + 2 ^ 64 - 1) % 2 ^ 64
    if amountLeft = 0 then .error st.virt else .ok ⟨st.virt, amountLeft⟩
  else .ok { st with virt := 0 }

/-- The body of the loop over words.  A word with all bits set is skipped. -/
def scanWord (word : BitVec 64) (page amount : ℕ) (st : Scan) : Except ℕ Scan :=
  if word = BitVec.allOnes 64 then .ok st else forRange 64 (scanBit word page amount) st

section Chunks

variable (chunk : Words → ℕ → ℕ)

/-- The three loops of `VM_AllocatePages`.  `amount_left` is set before it is read, so it does not
matter what it starts with. -/
def scanMarks (m : Words) (amount : ℕ) : Except ℕ Scan :=
  forRange 16 (fun idx ↦ forRange 512 fun subIndex ↦
    scanWord (m (chunk m idx + subIndex)) (idx * 32768 + subIndex * 64) amount) ⟨0, 0⟩

/-- The loop of `VM_MarkPagesUsed`, from page number `page` on.  The two indices are 16 bits
wide. -/
def markPages : ℕ → Words → ℕ → Words
  | 0, m, _ => m
  | amount + 1, m, page =>
    let ptrIndex := page / 32768 % 2 ^ 16
    let pageIndex := page / 64 % 2 ^ 16
    let bitIndex := page % 64
    let i := chunk m ptrIndex + pageIndex
    markPages amount (Function.update m i (m i ||| bitMask bitIndex)) (page + 1)

/-- `VM_MarkPagesUsed(kernel, virt, amount)`. -/
def vmMarkPagesUsed (m : Words) (virt amount : ℕ) : Words :=
  let virt := (virt + 2 ^ 64 - kernelVirtualBase) % 2 ^ 64
  markPages chunk amount m (virt / archPageSize)

/-- `VM_AllocatePages(kernel, amount)`: the address returned and the words after the call. -/
def vmAllocatePages (m : Words) (amount : ℕ) : ℕ × Words :=
  match scanMarks chunk m amount with
  | .ok _ => (0, m)
  | .error virt =>
    let virt := (virt + kernelVirtualBase) % 2 ^ 64
    (virt, vmMarkPagesUsed chunk m virt amount)

end Chunks

/-- The chunks follow one another: `&kernelPageMarks[idx * 512]`. -/
def chunkStart : Words → ℕ → ℕ := fun _ idx ↦ 512 * idx

/-! ## Which addresses are returned -/

/-- The addresses a word adds are those of its pages. -/
theorem scanWord_lt (word : BitVec 64) (amount : ℕ) {page bound : ℕ} {st : Scan}
    (hpage : (page + 64) * archPageSize ≤ bound) (hst : st.virt < bound) :
    (∀ st', scanWord word page amount st = .ok st' → st'.virt < bound) ∧
      ∀ v, scanWord word page amount st = .error v → v < bound := by
  rw [scanWord]
  split
  · refine ⟨fun st' h ↦ ?_, fun v h ↦ by simp at h⟩
    rw [Except.ok.injEq] at h
    exact h ▸ hst
  · refine forRange_inv (P := fun _ (st : Scan) ↦ st.virt < bound) hst fun b hb t ht ↦ ?_
    have hnew : (if t.virt = 0 then (⟨(page + b) * archPageSize, amount⟩ : Scan) else t).virt <
        bound := by
      split
      · exact lt_of_lt_of_le (Nat.mul_lt_mul_of_pos_right (by omega) (by decide)) hpage
      · exact ht
    unfold scanBit
    split
    · generalize (if t.virt = 0 then (⟨(page + b) * archPageSize, amount⟩ : Scan) else t) = u
        at hnew ⊢
      dsimp only
      generalize (u.amountLeft + 2 ^ 64 - 1) % 2 ^ 64 = left
      split
      · refine ⟨fun t' h ↦ by simp at h, fun v h ↦ ?_⟩
        rw [Except.error.injEq] at h
        exact h ▸ hnew
      · refine ⟨fun t' h ↦ ?_, fun v h ↦ by simp at h⟩
        rw [Except.ok.injEq] at h
        exact h ▸ hnew
    · refine ⟨fun t' h ↦ ?_, fun v h ↦ by simp at h⟩
      rw [Except.ok.injEq] at h
      rw [← h]
      exact lt_of_le_of_lt (Nat.zero_le _) ht

/-- The scan returns an address of the first 2 GiB, which the base is added to. -/
theorem scanMarks_virt_lt {chunk : Words → ℕ → ℕ} {m : Words} {amount v : ℕ}
    (h : scanMarks chunk m amount = .error v) : v < 2 ^ 31 := by
  refine (forRange_inv (P := fun _ (st : Scan) ↦ st.virt < 2 ^ 31) (Q := fun v ↦ v < 2 ^ 31)
    (by decide) fun idx hi t ht ↦ ?_).2 _ h
  refine forRange_inv (P := fun _ (st : Scan) ↦ st.virt < 2 ^ 31) ht fun sub hj t ht ↦ ?_
  have hpage : (idx * 32768 + sub * 64 + 64) * archPageSize ≤ 2 ^ 31 := by
    dsimp only [archPageSize]; omega
  exact scanWord_lt (m (chunk m idx + sub)) amount hpage ht

/-- `VM_AllocatePages` returns 0 or an address of the topmost 2 GiB. -/
theorem vmAllocatePages_virt (chunk : Words → ℕ → ℕ) (m : Words) (amount : ℕ) :
    (vmAllocatePages chunk m amount).1 = 0 ∨
      kernelVirtualBase ≤ (vmAllocatePages chunk m amount).1 ∧
        (vmAllocatePages chunk m amount).1 < 2 ^ 64 := by
  unfold vmAllocatePages
  split
  · exact Or.inl rfl
  · rename_i v hscan
    have hlt := scanMarks_virt_lt hscan
    refine Or.inr ?_
    dsimp only [kernelVirtualBase]
    omega

/-! ## The scan, page by page -/

/-- The page reads as free. -/
def Clear (m : Words) (page : ℕ) : Prop := m (page / 64) &&& bitMask (page % 64) = 0#64

instance (m : Words) (page : ℕ) : Decidable (Clear m page) := inferInstanceAs (Decidable (_ = _))

/-- One word, in the order of the array. -/
def wordStep (m : Words) (amount w : ℕ) : Scan → Except ℕ Scan := scanWord (m w) (64 * w) amount

/-- One page. -/
def pageStep (m : Words) (amount page : ℕ) : Scan → Except ℕ Scan :=
  scanBit (m (page / 64)) (64 * (page / 64)) amount (page % 64)

theorem scanMarks_eq (m : Words) (amount : ℕ) :
    scanMarks chunkStart m amount = forRange 8192 (wordStep m amount) ⟨0, 0⟩ := by
  rw [scanMarks, show 8192 = 512 * 16 from rfl, ← forRange_mul]
  refine forRange_congr fun i _ t ↦ forRange_congr fun j _ t ↦ ?_
  rw [wordStep, chunkStart]
  congr 1
  omega

/-- A word that is not skipped is scanned page by page. -/
theorem wordStep_eq {m : Words} {amount w : ℕ} (h : m w ≠ BitVec.allOnes 64) (st : Scan) :
    wordStep m amount w st = forRange 64 (fun b ↦ pageStep m amount (64 * w + b)) st := by
  rw [wordStep, scanWord, if_neg h]
  refine forRange_congr fun b hb t ↦ ?_
  rw [pageStep, show (64 * w + b) / 64 = w by omega, show (64 * w + b) % 64 = b by omega]

/-- The run being counted: it starts at page `v`, every page of it up to `page` reads as free, and
it is not complete yet. -/
structure Counting (m : Words) (amount page v : ℕ) (st : Scan) : Prop where
  /-- It does not start at page 0, which cannot be told from no page. -/
  pos : 0 < v
  /-- It has started before `page`. -/
  lt : v < page
  /-- The scan has its address. -/
  virt : st.virt = v * archPageSize
  /-- Its pages and those that it lacks make up the amount. -/
  left : st.amountLeft + (page - v) = amount
  /-- It lacks something. -/
  left_pos : 0 < st.amountLeft
  /-- Its pages are free. -/
  clear : ∀ x, v ≤ x → x < page → Clear m x

/-- What holds of the scan once the pages below `page` have been looked at. -/
def ScanInv (m : Words) (amount page : ℕ) (st : Scan) : Prop :=
  st.virt = 0 ∨ ∃ v, Counting m amount page v st

/-- `e` is the address of `amount` free pages that end by page `stop`. -/
def Found (m : Words) (amount stop e : ℕ) : Prop :=
  ∃ v, e = v * archPageSize ∧ v + amount ≤ stop ∧ ∀ x, v ≤ x → x < v + amount → Clear m x

section Scan

variable {m : Words} {amount page : ℕ} {st : Scan}

theorem pageStep_used (h : ¬ Clear m page) : pageStep m amount page st = .ok ⟨0, st.amountLeft⟩ :=
  if_neg h

theorem Counting.virt_ne_zero {v : ℕ} (hc : Counting m amount page v st) : st.virt ≠ 0 := by
  have := hc.pos
  rw [hc.virt]; dsimp only [archPageSize]; omega

/-- A free page starts a run. -/
theorem Counting.start (hclear : Clear m page) (hpos : 0 < page) (h2 : 2 ≤ amount) :
    Counting m amount (page + 1) page ⟨page * archPageSize, amount - 1⟩ := by
  refine ⟨hpos, by omega, rfl, by dsimp only; omega, by dsimp only; omega, fun x h1 h2 ↦ ?_⟩
  rwa [show x = page by omega]

/-- A free page continues a run. -/
theorem Counting.next {v : ℕ} (hc : Counting m amount page v st) (hclear : Clear m page)
    (hleft : st.amountLeft ≠ 1) :
    Counting m amount (page + 1) v ⟨v * archPageSize, st.amountLeft - 1⟩ := by
  have hlt := hc.lt
  have hpos := hc.left_pos
  have heq := hc.left
  refine ⟨hc.pos, by omega, rfl, by dsimp only; omega, by dsimp only; omega, fun x h1 h2 ↦ ?_⟩
  rcases Nat.lt_or_ge x page with hx | hx
  · exact hc.clear x h1 hx
  · rwa [show x = page by omega]

theorem pageStep_start (h : Clear m page) (hst : st.virt = 0) (h1 : 1 ≤ amount)
    (hlt : amount < 2 ^ 64) : pageStep m amount page st =
      if amount = 1 then .error (page * archPageSize)
      else .ok ⟨page * archPageSize, amount - 1⟩ := by
  rw [Clear] at h
  rw [pageStep, scanBit, if_pos h, if_pos hst]
  simp only [Nat.div_add_mod]
  rw [show (amount + 2 ^ 64 - 1) % 2 ^ 64 = amount - 1 by omega]
  by_cases ha : amount = 1
  · rw [if_pos ha, if_pos (by omega)]
  · rw [if_neg ha, if_neg (by omega)]

theorem pageStep_open (h : Clear m page) (hst : st.virt ≠ 0) (hpos : 0 < st.amountLeft)
    (hlt : st.amountLeft < 2 ^ 64) : pageStep m amount page st =
      if st.amountLeft = 1 then .error st.virt else .ok ⟨st.virt, st.amountLeft - 1⟩ := by
  rw [Clear] at h
  rw [pageStep, scanBit, if_pos h, if_neg hst]
  dsimp only
  rw [show (st.amountLeft + 2 ^ 64 - 1) % 2 ^ 64 = st.amountLeft - 1 by omega]
  by_cases ha : st.amountLeft = 1
  · rw [if_pos ha, if_pos (by omega)]
  · rw [if_neg ha, if_neg (by omega)]

theorem pageStep_continue {v : ℕ} (h : Clear m page) (hc : Counting m amount page v st)
    (hlt : amount < 2 ^ 64) : pageStep m amount page st =
      if st.amountLeft = 1 then .error (v * archPageSize)
      else .ok ⟨v * archPageSize, st.amountLeft - 1⟩ := by
  have hleft := hc.left
  rw [pageStep_open h hc.virt_ne_zero hc.left_pos (by omega), hc.virt]

/-- **One page**: the run is continued, started or given up, and if it is complete it is made of
free pages. -/
theorem pageStep_spec (h1 : 1 ≤ amount) (hlt : amount < 2 ^ 64) (hI : ScanInv m amount page st) :
    (∀ st', pageStep m amount page st = .ok st' → ScanInv m amount (page + 1) st') ∧
      ∀ e, pageStep m amount page st = .error e → Found m amount (page + 1) e := by
  by_cases hclear : Clear m page
  · rcases hI with hst | ⟨v, hc⟩
    · rw [pageStep_start hclear hst h1 hlt]
      split
      · refine ⟨fun st' h ↦ by simp at h, fun e h ↦ ?_⟩
        rw [Except.error.injEq] at h
        refine ⟨page, h.symm, by omega, fun x h1 h2 ↦ ?_⟩
        rwa [show x = page by omega]
      · refine ⟨fun st' h ↦ ?_, fun e h ↦ by simp at h⟩
        rw [Except.ok.injEq] at h
        subst h
        rcases Nat.eq_zero_or_pos page with rfl | hpos
        · exact Or.inl (Nat.zero_mul _)
        · exact Or.inr ⟨page, Counting.start hclear hpos (by omega)⟩
    · rw [pageStep_continue hclear hc hlt]
      split
      · refine ⟨fun st' h ↦ by simp at h, fun e h ↦ ?_⟩
        rw [Except.error.injEq] at h
        have hleft := hc.left
        have hvlt := hc.lt
        refine ⟨v, h.symm, by omega, fun x h1 h2 ↦ ?_⟩
        rcases Nat.lt_or_ge x page with hx | hx
        · exact hc.clear x h1 hx
        · rwa [show x = page by omega]
      · rename_i hleft
        refine ⟨fun st' h ↦ ?_, fun e h ↦ by simp at h⟩
        rw [Except.ok.injEq] at h
        exact Or.inr ⟨v, h ▸ hc.next hclear hleft⟩
  · rw [pageStep_used hclear]
    refine ⟨fun st' h ↦ ?_, fun e h ↦ by simp at h⟩
    rw [Except.ok.injEq] at h
    exact Or.inl (h ▸ rfl)

/-- **The scan of the first `n` pages.** -/
theorem scanPages_spec (h1 : 1 ≤ amount) (hlt : amount < 2 ^ 64) (n : ℕ) :
    (∀ st, forRange n (pageStep m amount) ⟨0, 0⟩ = .ok st → ScanInv m amount n st) ∧
      ∀ e, forRange n (pageStep m amount) ⟨0, 0⟩ = .error e → Found m amount n e := by
  refine forRange_inv (Or.inl rfl) fun i hi t hI ↦ ?_
  obtain ⟨hok, herror⟩ := pageStep_spec h1 hlt hI
  refine ⟨hok, fun e h ↦ ?_⟩
  obtain ⟨v, he, hv, hclear⟩ := herror e h
  exact ⟨v, he, by omega, hclear⟩

/-- **The scan finds what there is**: a run of free pages, not starting at page 0 unless one page is
enough. -/
theorem scanPages_finds (h1 : 1 ≤ amount) (hlt : amount < 2 ^ 64) {p : ℕ} (hp : 0 < p ∨ amount = 1)
    (hclear : ∀ x, p ≤ x → x < p + amount → Clear m x) :
    ∃ e, forRange (p + amount) (pageStep m amount) ⟨0, 0⟩ = .error e := by
  -- from page `p` on a run is being counted that starts no later than at `p`
  have hstep : ∀ q, q < p + amount → ∀ st, ScanInv m amount q st ∧
      (p < q → ∃ v, v ≤ p ∧ Counting m amount q v st) →
      (∀ st', pageStep m amount q st = .ok st' → ScanInv m amount (q + 1) st' ∧
        (p < q + 1 → ∃ v, v ≤ p ∧ Counting m amount (q + 1) v st')) ∧
      ∀ e, pageStep m amount q st = .error e → True := by
    rintro q hq st ⟨hI, hlate⟩
    refine ⟨fun st' h ↦ ⟨(pageStep_spec h1 hlt hI).1 st' h, fun hpq ↦ ?_⟩, fun _ _ ↦ trivial⟩
    have hc := hclear q (by omega) hq
    rcases hI with hst | ⟨v, hv⟩
    · obtain rfl : q = p := by
        by_contra hne
        obtain ⟨v, -, hv⟩ := hlate (by omega)
        exact hv.virt_ne_zero hst
      rw [pageStep_start hc hst h1 hlt] at h
      split at h
      · simp at h
      · rw [Except.ok.injEq] at h
        exact ⟨q, le_refl q, h ▸ Counting.start hc (by omega) (by omega)⟩
    · obtain ⟨v, hvp, hv⟩ : ∃ v, v ≤ p ∧ Counting m amount q v st := by
        rcases Nat.lt_or_ge p q with hpq | hpq
        · exact hlate hpq
        · exact ⟨v, by have := hv.lt; omega, hv⟩
      rw [pageStep_continue hc hv hlt] at h
      split at h
      · simp at h
      · rename_i hleft
        rw [Except.ok.injEq] at h
        exact ⟨v, hvp, h ▸ hv.next hc hleft⟩
  have hinv := forRange_inv (s := ⟨0, 0⟩) ⟨Or.inl rfl, by omega⟩ hstep
  rcases h : forRange (p + amount) (pageStep m amount) ⟨0, 0⟩ with e | st
  · exact ⟨e, rfl⟩
  · obtain ⟨-, hlate⟩ := hinv.1 st h
    obtain ⟨v, hv, hc⟩ := hlate (by omega)
    have := hc.left
    have := hc.left_pos
    omega

end Scan

/-! ## Words that are skipped -/

/-- No run is being counted when the scan comes to word `w` and skips it: the word before ends
with a page in use, or one page is all that is wanted. -/
def NoGap (m : Words) (amount w : ℕ) : Prop :=
  m w = BitVec.allOnes 64 → amount = 1 ∨ w = 0 ∨ ¬ Clear m (64 * w - 1)

theorem bitMask_ne_zero (b : ℕ) : bitMask b ≠ 0#64 := by
  have h : ∀ i : Fin 32, ((1#32) <<< (i : ℕ)).signExtend 64 ≠ 0#64 := by decide
  exact h ⟨b % 32, Nat.mod_lt _ (by decide)⟩

/-- In a word with all bits set no page reads as free. -/
theorem not_clear_of_allOnes {m : Words} {page : ℕ} (h : m (page / 64) = BitVec.allOnes 64) :
    ¬ Clear m page := by
  rw [Clear, h, BitVec.allOnes_and]
  exact bitMask_ne_zero _

section Skip

variable {m : Words} {amount : ℕ}

/-- Pages in use, one after the other, keep the scan at no run. -/
theorem scanUsed {a n : ℕ} {st : Scan} (hst : st.virt = 0)
    (hused : ∀ x, a ≤ x → x < a + n → ¬ Clear m x) :
    forRange n (fun b ↦ pageStep m amount (a + b)) st = .ok st := by
  obtain ⟨s', hs', rfl⟩ := forRange_eq_ok (f := fun b ↦ pageStep m amount (a + b)) (n := n)
    (P := fun _ t ↦ t = st) rfl fun i hi t ht ↦ ⟨st, by
      rw [pageStep_used (hused (a + i) (by omega) (by omega)), ht, ← hst], rfl⟩
  exact hs'

/-- **The scan word by word is the scan page by page** as long as no run is carried over a skipped
word. -/
theorem scanWords_eq (h1 : 1 ≤ amount) (hlt : amount < 2 ^ 64) {n : ℕ}
    (hgap : ∀ w, w < n → NoGap m amount w) :
    forRange n (wordStep m amount) ⟨0, 0⟩ = forRange (64 * n) (pageStep m amount) ⟨0, 0⟩ := by
  induction n with
  | zero => rfl
  | succ n ih =>
    have ih := ih fun w hw ↦ hgap w (by omega)
    rw [Nat.mul_succ, forRange_add (64 * n)]
    rcases h : forRange (64 * n) (pageStep m amount) ⟨0, 0⟩ with e | st
    · rw [forRange_succ_error (ih.trans h)]
    · rw [forRange_succ_ok (ih.trans h)]
      by_cases hfull : m n = BitVec.allOnes 64
      · have hst : st.virt = 0 := by
          rcases (scanPages_spec h1 hlt (64 * n)).1 st h with hst | ⟨v, hc⟩
          · exact hst
          · -- the run would end with the last page of the word before
            have hleft := hc.left
            have hpos := hc.left_pos
            have hvlt := hc.lt
            rcases hgap n (Nat.lt_succ_self n) hfull with ha | h0 | hused
            · omega
            · omega
            · exact absurd (hc.clear (64 * n - 1) (by omega) (by omega)) hused
        have hused : ∀ x, 64 * n ≤ x → x < 64 * n + 64 → ¬ Clear m x := fun x hx1 hx2 ↦
          not_clear_of_allOnes (by rw [show x / 64 = n by omega]; exact hfull)
        rw [wordStep, scanWord, if_pos hfull]
        exact (scanUsed hst hused).symm
      · exact wordStep_eq hfull st

/-- Words without a free page never complete a run. -/
theorem wordStep_used {w : ℕ} (hused : ∀ x, x / 64 = w → ¬ Clear m x) (st : Scan) :
    ∃ st', wordStep m amount w st = .ok st' := by
  by_cases hfull : m w = BitVec.allOnes 64
  · exact ⟨st, if_pos hfull⟩
  · rw [wordStep_eq hfull]
    obtain ⟨s', hs', -⟩ := forRange_eq_ok (f := fun b ↦ pageStep m amount (64 * w + b)) (n := 64)
      (s := st) (P := fun _ _ ↦ True) trivial fun i hi t _ ↦
        ⟨_, pageStep_used (hused (64 * w + i) (by omega)), trivial⟩
    exact ⟨s', hs'⟩

end Skip

/-! ## Marking -/

section Marking

variable {m : Words}

theorem or_and_eq_zero {a b c : BitVec 64} (h : (a ||| b) &&& c = 0#64) :
    a &&& c = 0#64 ∧ b &&& c = 0#64 := by
  have hbit : ∀ j, ((a.getLsbD j || b.getLsbD j) && c.getLsbD j) = false := by
    intro j
    rw [← BitVec.getLsbD_or, ← BitVec.getLsbD_and, h, BitVec.getLsbD_zero]
  refine ⟨BitVec.eq_of_getLsbD_eq fun j _ ↦ ?_, BitVec.eq_of_getLsbD_eq fun j _ ↦ ?_⟩
  all_goals
    have := hbit j
    rw [BitVec.getLsbD_and, BitVec.getLsbD_zero]
    revert this
    cases a.getLsbD j <;> cases b.getLsbD j <;> simp

theorem clear_of_or {i page : ℕ} {b : BitVec 64}
    (h : Clear (Function.update m i (m i ||| b)) page) : Clear m page := by
  rw [Clear] at h ⊢
  rcases eq_or_ne (page / 64) i with hi | hi
  · rw [hi, Function.update_self] at h
    rw [hi]
    exact (or_and_eq_zero h).1
  · rwa [Function.update_of_ne hi] at h

/-- **What marking pages of the first chunk does**: they read as used, and so does everything that
did before. -/
theorem markPages_spec {n page : ℕ} (hpage : page + n ≤ 32768) :
    (∀ x, Clear (markPages chunkStart n m page) x → Clear m x) ∧
      ∀ x, page ≤ x → x < page + n → ¬ Clear (markPages chunkStart n m page) x := by
  induction n generalizing m page with
  | zero => exact ⟨fun _ h ↦ h, fun x h1 h2 ↦ by omega⟩
  | succ n ih =>
    have hindex : chunkStart m (page / 32768 % 2 ^ 16) + page / 64 % 2 ^ 16 = page / 64 := by
      rw [chunkStart]; omega
    rw [markPages]
    simp only [hindex]
    obtain ⟨hmono, hused⟩ := ih
      (m := Function.update m (page / 64) (m (page / 64) ||| bitMask (page % 64)))
      (show page + 1 + n ≤ 32768 by omega)
    refine ⟨fun x h ↦ clear_of_or (hmono x h), fun x h1 h2 h ↦ ?_⟩
    rcases Nat.eq_or_lt_of_le h1 with rfl | hlt
    · have hself := hmono _ h
      rw [Clear, Function.update_self] at hself
      refine bitMask_ne_zero (page % 64) ?_
      rw [← (or_and_eq_zero hself).2, BitVec.and_self]
    · exact hused x hlt (by omega) h

end Marking

/-! ## A call -/

/-- The pages of the first chunk. -/
abbrev chunkPages : ℕ := 32768

/-- What a call needs to be safe.  Either there are enough free pages in a row in the first
chunk, page 0 not counted unless it is all that is wanted, and up to their end no run is carried
over a skipped word; or no page of the other 15 chunks reads as free and no run is carried over a
skipped word of the first chunk. -/
def SafeRequest (m : Words) (amount : ℕ) : Prop :=
  (∃ p, (0 < p ∨ amount = 1) ∧ p + amount ≤ chunkPages ∧
    (∀ x, p ≤ x → x < p + amount → Clear m x) ∧ ∀ w, 64 * w < p + amount → NoGap m amount w) ∨
  (∀ x, chunkPages ≤ x → x < 16 * chunkPages → ¬ Clear m x) ∧ ∀ w, w < 512 → NoGap m amount w

section Call

variable {m m' : Words} {amount virt : ℕ}

/-- The scan ends with free pages when there are enough in a row in the first chunk. -/
theorem scanMarks_finds (h1 : 1 ≤ amount) (hlt : amount < 2 ^ 64) {p : ℕ} (hp : 0 < p ∨ amount = 1)
    (hend : p + amount ≤ chunkPages) (hclear : ∀ x, p ≤ x → x < p + amount → Clear m x)
    (hgap : ∀ w, 64 * w < p + amount → NoGap m amount w) :
    ∃ e, scanMarks chunkStart m amount = .error e ∧ Found m amount (p + amount) e := by
  obtain ⟨e, he⟩ := scanPages_finds h1 hlt hp hclear
  refine ⟨e, ?_, (scanPages_spec h1 hlt (p + amount)).2 e he⟩
  have hwords : forRange ((p + amount + 63) / 64) (wordStep m amount) ⟨0, 0⟩ = .error e := by
    rw [scanWords_eq h1 hlt fun w hw ↦ hgap w (by omega)]
    exact forRange_error_mono (by omega) he
  rw [scanMarks_eq]
  exact forRange_error_mono (by dsimp only [chunkPages] at *; omega) hwords

/-- What a safe scan ends with: free pages of the first chunk, or nothing. -/
theorem scanMarks_spec (h1 : 1 ≤ amount) (hlt : amount < 2 ^ 64) (h : SafeRequest m amount) {e : ℕ}
    (hscan : scanMarks chunkStart m amount = .error e) : Found m amount chunkPages e := by
  rcases h with ⟨p, hp, hend, hclear, hgap⟩ | ⟨hused, hgap⟩
  · obtain ⟨e', he', v, hv, hvend, hvclear⟩ := scanMarks_finds h1 hlt hp hend hclear hgap
    rw [he', Except.error.injEq] at hscan
    exact ⟨v, hscan ▸ hv, by omega, hvclear⟩
  · have hfirst := scanWords_eq h1 hlt hgap
    rw [scanMarks_eq, show 8192 = 512 + 7680 from rfl, forRange_add] at hscan
    rcases hpages : forRange (64 * 512) (pageStep m amount) ⟨0, 0⟩ with e' | st
    · rw [hfirst, hpages] at hscan
      simp only [Except.error.injEq] at hscan
      exact (scanPages_spec h1 hlt (64 * 512)).2 e (hscan ▸ hpages)
    · -- nothing in the other chunks completes a run
      rw [hfirst, hpages] at hscan
      obtain ⟨s', hs', -⟩ := forRange_eq_ok (f := fun i ↦ wordStep m amount (512 + i)) (n := 7680)
        (s := st) (P := fun _ _ ↦ True) trivial fun i hi t _ ↦ by
          have hword : ∃ t', wordStep m amount (512 + i) t = .ok t' :=
            wordStep_used (fun x hx ↦ hused x (by dsimp only [chunkPages]; omega)
              (by dsimp only [chunkPages]; omega)) t
          exact ⟨hword.choose, hword.choose_spec, trivial⟩
      simp only [hs'] at hscan
      cases hscan

/-- **A safe call** returns 0, or pages of the first chunk that read as free before and as
used after it; what read as used still does. -/
theorem vmAllocatePages_spec (h1 : 1 ≤ amount) (hlt : amount < 2 ^ 64) (h : SafeRequest m amount)
    (hcall : vmAllocatePages chunkStart m amount = (virt, m')) :
    (∀ x, Clear m' x → Clear m x) ∧ (virt = 0 ∨
      ∃ v, virt = kernelVirtualBase + v * archPageSize ∧ v + amount ≤ chunkPages ∧
        ∀ x, v ≤ x → x < v + amount → Clear m x ∧ ¬ Clear m' x) := by
  unfold vmAllocatePages at hcall
  rcases hscan : scanMarks chunkStart m amount with e | st
  · obtain ⟨v, rfl, hend, hclear⟩ := scanMarks_spec h1 hlt h hscan
    rw [hscan] at hcall
    simp only [Prod.mk.injEq] at hcall
    obtain ⟨rfl, rfl⟩ := hcall
    have hpage : ((v * archPageSize + kernelVirtualBase) % 2 ^ 64 + 2 ^ 64 - kernelVirtualBase) %
        2 ^ 64 / archPageSize = v := by
      dsimp only [kernelVirtualBase, archPageSize, chunkPages] at *; omega
    rw [vmMarkPagesUsed]
    simp only [hpage]
    obtain ⟨hmono, hused⟩ := markPages_spec (m := m) hend
    refine ⟨hmono, Or.inr ⟨v, ?_, hend, fun x hx1 hx2 ↦ ⟨hclear x hx1 hx2, hused x hx1 hx2⟩⟩⟩
    dsimp only [kernelVirtualBase, archPageSize, chunkPages] at *; omega
  · rw [hscan] at hcall
    simp only [Prod.mk.injEq] at hcall
    obtain ⟨rfl, rfl⟩ := hcall
    exact ⟨fun _ hx ↦ hx, Or.inl rfl⟩

/-- A request that can be met in the first chunk is. -/
theorem vmAllocatePages_finds (h1 : 1 ≤ amount) (hlt : amount < 2 ^ 64) {p : ℕ}
    (hp : 0 < p ∨ amount = 1) (hend : p + amount ≤ chunkPages)
    (hclear : ∀ x, p ≤ x → x < p + amount → Clear m x)
    (hgap : ∀ w, 64 * w < p + amount → NoGap m amount w) :
    ∃ v, (vmAllocatePages chunkStart m amount).1 = kernelVirtualBase + v * archPageSize ∧
      v + amount ≤ chunkPages := by
  obtain ⟨e, he, v, rfl, hvend, -⟩ := scanMarks_finds h1 hlt hp hend hclear hgap
  refine ⟨v, ?_, by omega⟩
  unfold vmAllocatePages
  rw [he]
  dsimp only [kernelVirtualBase, archPageSize, chunkPages] at *
  omega

end Call

/-! ## Sequences of calls -/

/-- What a call returned, for how many pages. -/
structure VmCall where
  /-- The address, or 0. -/
  virt : ℕ
  /-- How many pages were asked for. -/
  amount : ℕ

/-- The addresses a call that returned an address has handed out. -/
def VmCall.span (c : VmCall) : Set ℕ := Set.Ico c.virt (c.virt + c.amount * archPageSize)

/-- A sequence of calls of `VM_AllocatePages(kernel, amount)` from the bitmap `m₀`, each of them
made on a bitmap and for an amount with `ok`.  The latest call comes first. -/
inductive VmCalls (ok : Words → ℕ → Prop) (m₀ : Words) : List VmCall → Words → Prop
  | nil : VmCalls ok m₀ [] m₀
  | call {R : List VmCall} {m m' : Words} {amount virt : ℕ} (h : VmCalls ok m₀ R m)
      (h1 : 1 ≤ amount) (hlt : amount < 2 ^ 64) (hok : ok m amount)
      (hcall : vmAllocatePages chunkStart m amount = (virt, m')) :
      VmCalls ok m₀ (⟨virt, amount⟩ :: R) m'

/-- No two calls that returned an address returned addresses in common. -/
def DisjointCalls (R : List VmCall) : Prop :=
  R.Pairwise fun c d ↦ c.virt ≠ 0 → d.virt ≠ 0 → Disjoint c.span d.span

/-- What a call returned are pages of the first chunk that read as used. -/
def HandedOut (m : Words) (c : VmCall) : Prop :=
  ∃ v, c.virt = kernelVirtualBase + v * archPageSize ∧ v + c.amount ≤ chunkPages ∧
    ∀ x, v ≤ x → x < v + c.amount → ¬ Clear m x

/-- Pages that read as free have not been handed out. -/
theorem HandedOut.disjoint {m : Words} {c : VmCall} (hc : HandedOut m c) {v n : ℕ}
    (hclear : ∀ x, v ≤ x → x < v + n → Clear m x) :
    Disjoint (VmCall.mk (kernelVirtualBase + v * archPageSize) n).span c.span := by
  obtain ⟨v', hvirt, -, hused⟩ := hc
  rw [Set.disjoint_left]
  rintro a ⟨h1, h2⟩ ⟨h3, h4⟩
  -- the page the address lies in would be both
  have hpage : v ≤ (a - kernelVirtualBase) / archPageSize ∧
      (a - kernelVirtualBase) / archPageSize < v + n := by
    dsimp only [kernelVirtualBase, archPageSize] at *; omega
  have hpage' : v' ≤ (a - kernelVirtualBase) / archPageSize ∧
      (a - kernelVirtualBase) / archPageSize < v' + c.amount := by
    rw [hvirt] at h3 h4
    dsimp only [kernelVirtualBase, archPageSize] at *; omega
  exact hused _ hpage'.1 hpage'.2 (hclear _ hpage.1 hpage.2)

theorem VmCalls.inv {m₀ m : Words} {R : List VmCall} (hrun : VmCalls SafeRequest m₀ R m) :
    DisjointCalls R ∧ ∀ c ∈ R, c.virt ≠ 0 → HandedOut m c := by
  induction hrun with
  | nil => exact ⟨List.Pairwise.nil, by simp⟩
  | @call R m m' amount virt _ h1 hlt hok hcall ih =>
    obtain ⟨hpair, hR⟩ := ih
    obtain ⟨hmono, hres⟩ := vmAllocatePages_spec h1 hlt hok hcall
    refine ⟨List.pairwise_cons.mpr ⟨fun c hc hvirt hc0 ↦ ?_, hpair⟩, fun c hc hc0 ↦ ?_⟩
    · rcases hres with h0 | ⟨v, rfl, -, hclear⟩
      · exact absurd h0 hvirt
      · exact (hR c hc hc0).disjoint fun x hx1 hx2 ↦ (hclear x hx1 hx2).1
    · rcases List.mem_cons.mp hc with rfl | hc
      · rcases hres with h0 | ⟨v, hv, hend, hclear⟩
        · exact absurd h0 hc0
        · exact ⟨v, hv, hend, fun x hx1 hx2 ↦ (hclear x hx1 hx2).2⟩
      · obtain ⟨v, hv, hend, hused⟩ := hR c hc hc0
        exact ⟨v, hv, hend, fun x hx1 hx2 hx ↦ hused x hx1 hx2 (hmono x hx)⟩

/-- **Ranges do not overlap** in any sequence of safe calls, from any bitmap. -/
theorem vmCalls_disjoint {m₀ m : Words} {R : List VmCall} (hrun : VmCalls SafeRequest m₀ R m) :
    DisjointCalls R := hrun.inv.1

/-! ### Single pages -/

/-- A request for one page, with `n` words in use and the page in the word behind them. -/
theorem vmAllocatePages_one {m : Words} {n p : ℕ} (hn : n < 8192)
    (hfull : ∀ w, w < n → m w = BitVec.allOnes 64) (hp : 64 * n ≤ p) (hend : p < 64 * n + 64)
    (hused : ∀ x, 64 * n ≤ x → x < p → ¬ Clear m x) (hclear : Clear m p) :
    vmAllocatePages chunkStart m 1 = (kernelVirtualBase + p * archPageSize,
      markPages chunkStart 1 m p) := by
  have hpages : forRange (p + 1) (pageStep m 1) ⟨0, 0⟩ = .error (p * archPageSize) := by
    have hbefore : forRange p (fun b ↦ pageStep m 1 (0 + b)) ⟨0, 0⟩ = .ok ⟨0, 0⟩ := by
      refine scanUsed rfl fun x _ hx ↦ ?_
      rcases Nat.lt_or_ge x (64 * n) with hxn | hxn
      · exact not_clear_of_allOnes (hfull _ (by omega))
      · exact hused x hxn (by omega)
    simp only [Nat.zero_add] at hbefore
    rw [forRange_succ_ok hbefore, pageStep_start hclear rfl (le_refl 1) (by decide), if_pos rfl]
  have hscan : scanMarks chunkStart m 1 = .error (p * archPageSize) := by
    have hwords : forRange (n + 1) (wordStep m 1) ⟨0, 0⟩ =
        forRange (64 * (n + 1)) (pageStep m 1) ⟨0, 0⟩ :=
      scanWords_eq (le_refl 1) (by decide) fun w _ _ ↦ Or.inl rfl
    rw [scanMarks_eq]
    refine forRange_error_mono (show n + 1 ≤ 8192 by omega) ?_
    rw [hwords]
    exact forRange_error_mono (by omega) hpages
  have hvirt : (p * archPageSize + kernelVirtualBase) % 2 ^ 64 =
      kernelVirtualBase + p * archPageSize := by
    dsimp only [archPageSize, kernelVirtualBase]; omega
  have hback : (kernelVirtualBase + p * archPageSize + 2 ^ 64 - kernelVirtualBase) % 2 ^ 64 /
      archPageSize = p := by
    dsimp only [archPageSize, kernelVirtualBase]; omega
  unfold vmAllocatePages
  rw [hscan]
  simp only [hvirt, vmMarkPagesUsed, hback]

theorem safeRequest_one {m : Words} {p : ℕ} (hend : p < chunkPages) (hclear : Clear m p) :
    SafeRequest m 1 := by
  refine Or.inl ⟨p, Or.inr rfl, hend, fun x hx1 hx2 ↦ ?_, fun w _ _ ↦ Or.inl rfl⟩
  rwa [show x = p by omega]

/-- From an empty bitmap, two requests for a page return the first two. -/
theorem vmCalls_disjoint_two : ∃ m, VmCalls SafeRequest (fun _ ↦ 0#64)
      [⟨kernelVirtualBase + 1 * archPageSize, 1⟩, ⟨kernelVirtualBase + 0 * archPageSize, 1⟩] m ∧
    DisjointCalls [⟨kernelVirtualBase + 1 * archPageSize, 1⟩,
      ⟨kernelVirtualBase + 0 * archPageSize, 1⟩] := by
  have hfirst := vmAllocatePages_one (m := fun _ ↦ 0#64) (n := 0) (p := 0) (by decide)
    (fun w hw ↦ absurd hw (Nat.not_lt_zero w)) (by decide) (by decide) (fun x _ hx ↦ by omega)
    (by decide)
  have hsecond := vmAllocatePages_one (m := markPages chunkStart 1 (fun _ ↦ 0#64) 0) (n := 0)
    (p := 1) (by decide) (fun w hw ↦ absurd hw (Nat.not_lt_zero w)) (by decide) (by decide)
    (fun x _ hx ↦ by rw [show x = 0 by omega]; decide) (by decide)
  have hrun := (VmCalls.nil.call (le_refl 1) (by decide) (safeRequest_one (p := 0)
    (by decide) (by decide)) hfirst).call (le_refl 1) (by decide)
      (safeRequest_one (p := 1) (by decide) (by decide)) hsecond
  exact ⟨_, hrun, vmCalls_disjoint hrun⟩

/-- The first chunk is in use and the others are not. -/
def firstChunkUsed : Words := fun w ↦ if w < 512 then BitVec.allOnes 64 else 0#64

/-- **The same page twice**: with the first chunk in use, the first page of the second chunk is
handed out, and marked in the third. -/
theorem vmCalls_same_page :
    (∃ m, VmCalls (fun _ _ ↦ True) firstChunkUsed
      [⟨kernelVirtualBase + 32768 * archPageSize, 1⟩,
        ⟨kernelVirtualBase + 32768 * archPageSize, 1⟩] m) ∧
    ¬ DisjointCalls [⟨kernelVirtualBase + 32768 * archPageSize, 1⟩,
      ⟨kernelVirtualBase + 32768 * archPageSize, 1⟩] := by
  -- the word that is written is word 1024, the page's own is word 512
  have hsame : ∀ w, w ≤ 512 → markPages chunkStart 1 firstChunkUsed 32768 w = firstChunkUsed w := by
    intro w hw
    exact Function.update_of_ne (by rw [chunkStart]; omega) _ _
  have hfirst := vmAllocatePages_one (m := firstChunkUsed) (n := 512) (p := 32768) (by decide)
    (fun w hw ↦ if_pos hw) (by decide) (by decide) (fun x hx1 hx2 ↦ by omega) (by decide)
  have hsecond := vmAllocatePages_one (m := markPages chunkStart 1 firstChunkUsed 32768) (n := 512)
    (p := 32768) (by decide) (fun w hw ↦ by rw [hsame w (by omega)]; exact if_pos hw) (by decide)
    (by decide) (fun x hx1 hx2 ↦ by omega) (by rw [Clear, hsame _ (by decide)]; decide)
  refine ⟨⟨_, (VmCalls.nil.call (le_refl 1) (by decide) trivial hfirst).call (le_refl 1)
    (by decide) trivial hsecond⟩, fun h ↦ ?_⟩
  have hd := (List.pairwise_cons.mp h).1 _ (List.mem_singleton_self _) (by decide) (by decide)
  have hmem : kernelVirtualBase + 32768 * archPageSize ∈
      (VmCall.mk (kernelVirtualBase + 32768 * archPageSize) 1).span := ⟨le_refl _, by decide⟩
  exact Set.disjoint_left.mp hd hmem hmem

end CubikOS

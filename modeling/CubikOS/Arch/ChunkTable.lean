import CubikOS.Lib.Memory
import CubikOS.Arch.Mark
import CubikOS.Arch.Paging

/-!
# The pointers to the chunks of the bitmap

`VM_MarkPagesUsed`, `VM_MarkPagesFree`, `VM_FreePages` and `VM_AllocatePages` of
`Kernel/arch/x86_64/paging.c` once more, for the kernel process, now with the table of pointers
`m_VirtuaPagesBitmap` the words are reached through.

The memory is all of it, by words, and `kernelPageMarks` are 8192 words somewhere in it.  What the
table holds at an index is read when it is needed: it may be anything behind the 16 pointers that
`LoadVirtualMemory` has set, and in the kernel the table and the words are the same array
(`kernelTable`).  A mask is ORed in wherever the pointer leads to, which need not be a multiple of
eight, nor be mapped.

The branch of `VM_AllocatePages` for a null pointer is left out: the 16 pointers are not null when
they are set, and nothing takes a bit away from them (`Below`).
-/

set_option autoImplicit false

namespace CubikOS

open Loop WordMemory

/-! ## The functions -/

/-- `m_VirtuaPagesBitmap` and `kernelPageMarks`. -/
structure ChunkTable where
  /-- The number of the first word of `kernelPageMarks`. -/
  base : ℕ
  /-- What `m_VirtuaPagesBitmap[idx]` is. -/
  entry : Memory → ℕ → ℕ
  /-- Eight bytes at this address can be read and written. -/
  accessible : ℕ → Bool
  /-- The array ends before the addresses do. -/
  fits : 8 * (base + 8192) ≤ 2 ^ 64

namespace ChunkTable

variable (T : ChunkTable)

/-- `&m_VirtuaPagesBitmap[ptr_index][pageIndex]`, for the page with number `page`.  The two indices
are 16 bits wide. -/
def wordAddr (m : Memory) (page : ℕ) : ℕ :=
  let ptrIndex := page / 32768 % 2 ^ 16
  let pageIndex := page / 64 % 2 ^ 16
  (T.entry m ptrIndex + 8 * pageIndex) % 2 ^ 64

/-- The loop that `VM_MarkPagesUsed` and `VM_MarkPagesFree` share, from page number `page` on. -/
def orPages : ℕ → Memory → ℕ → Except Fault Memory
  | 0, m, _ => .ok m
  | amount + 1, m, page =>
    if T.accessible (T.wordAddr m page) then
      orPages amount (orAt m (T.wordAddr m page) (bitMask (page % 64))) (page + 1)
    else .error .pageFault

/-- `VM_MarkPagesUsed(kernel, virt, amount)`. -/
def vmMarkPagesUsed (m : Memory) (virt amount : ℕ) : Except Fault Memory :=
  let virt := (virt + 2 ^ 64 - kernelVirtualBase) % 2 ^ 64
  T.orPages amount m (virt / archPageSize)

/-- `VM_MarkPagesFree(kernel, virt, amount)`: another base is subtracted, and the bits are set. -/
def vmMarkPagesFree (m : Memory) (virt amount : ℕ) : Except Fault Memory :=
  let virt := (virt + 2 ^ 64 - kernelAddrSpace) % 2 ^ 64
  T.orPages amount m (virt / archPageSize)

/-- `VM_FreePages(kernel, virt, amount)`. -/
def vmFreePages (m : Memory) (virt amount : ℕ) : Except Fault Memory :=
  T.vmMarkPagesFree m virt amount

/-- The body of the loop over words, for `marks[idx][sub_index]`.  `.error` holds the fault, or the
address that is returned before the base is added. -/
def scanEntry (m : Memory) (amount idx subIndex : ℕ) (st : Scan) : Except (Fault ⊕ ℕ) Scan :=
  let addr := (T.entry m idx + 8 * subIndex) % 2 ^ 64
  if T.accessible addr then
    (scanWord (readAt m addr) (idx * 32768 + subIndex * 64) amount st).mapError Sum.inr
  else .error (.inl .pageFault)

/-- The three loops of `VM_AllocatePages`. -/
def scanMarks (m : Memory) (amount : ℕ) : Except (Fault ⊕ ℕ) Scan :=
  forRange 16 (fun idx ↦ forRange 512 fun subIndex ↦ T.scanEntry m amount idx subIndex) ⟨0, 0⟩

/-- `VM_AllocatePages(kernel, amount)`. -/
def vmAllocatePages (m : Memory) (amount : ℕ) : Except Fault (ℕ × Memory) :=
  match T.scanMarks m amount with
  | .ok _ => .ok (0, m)
  | .error (.inl f) => .error f
  | .error (.inr virt) =>
    let virt := (virt + kernelVirtualBase) % 2 ^ 64
    match T.vmMarkPagesUsed m virt amount with
    | .error f => .error f
    | .ok m => .ok (virt, m)

/-! ## The words of the bitmap -/

/-- The first `n` words of the bitmap are the same. -/
def Same (n : ℕ) (m m' : Memory) : Prop := ∀ w, w < n → m' (T.base + w) = m (T.base + w)

/-- The bit lies in the first `n` words of the bitmap. -/
def Within (n x : ℕ) : Prop := T.base ≤ x / 64 ∧ x / 64 < T.base + n

/-- The first `n` pointers depend on no word but the first `n`. -/
def Reads (n : ℕ) : Prop :=
  ∀ m m', T.Same n m m' → ∀ idx, idx < n → T.entry m' idx = T.entry m idx

/-- The update for page number `page` sets no bit of the first `n` words that is not set yet. -/
def NoNew (n : ℕ) (m : Memory) (page : ℕ) : Prop :=
  ∀ b, (bitMask (page % 64)).getLsbD b = true → T.Within n (8 * T.wordAddr m page + b) →
    bit m (8 * T.wordAddr m page + b) = true

/-- The update for page number `page` can be made, and sets no new bit of the bitmap. -/
structure Idle (m : Memory) (page : ℕ) : Prop where
  /-- The word is there. -/
  accessible : T.accessible (T.wordAddr m page) = true
  /-- Its bits are set, or are no bits of the bitmap. -/
  noNew : T.NoNew 8192 m page

section Words

variable {T} {m m' m'' : Memory} {n page : ℕ}

theorem Same.symm (h : T.Same n m m') : T.Same n m' m := fun w hw ↦ (h w hw).symm

theorem Same.trans (h : T.Same n m m') (h' : T.Same n m' m'') : T.Same n m m'' :=
  fun w hw ↦ (h' w hw).trans (h w hw)

theorem Same.bit {x : ℕ} (h : T.Same n m m') (hx : T.Within n x) : bit m' x = bit m x := by
  obtain ⟨h1, h2⟩ := hx
  refine bit_congr ?_
  have := h (x / 64 - T.base) (by omega)
  rwa [Nat.add_sub_cancel' h1] at this

/-- What lies between two memories with the same words has the same words. -/
theorem Same.between (h : T.Same n m m'') (h1 : Below m m') (h2 : Below m' m'') :
    T.Same n m m' ∧ T.Same n m' m'' := by
  have hleft : T.Same n m m' := fun w hw ↦ h1.word_eq h2 (h w hw)
  exact ⟨hleft, hleft.symm.trans h⟩

theorem Same.wordAddr (hT : T.Reads n) (h : T.Same n m m') (hidx : page / 32768 % 2 ^ 16 < n) :
    T.wordAddr m' page = T.wordAddr m page := by
  simp only [ChunkTable.wordAddr, hT m m' h _ hidx]

theorem Same.noNew (hT : T.Reads n) (h : T.Same n m m') (hidx : page / 32768 % 2 ^ 16 < n)
    (hnew : T.NoNew n m page) : T.NoNew n m' page := by
  intro b hb hin
  rw [h.wordAddr hT hidx] at hin ⊢
  rw [h.bit hin]
  exact hnew b hb hin

theorem Same.idle (hT : T.Reads 8192) (h : T.Same 8192 m m') (hidx : page / 32768 % 2 ^ 16 < 8192)
    (hidle : T.Idle m page) : T.Idle m' page := by
  refine ⟨?_, h.noNew hT hidx hidle.noNew⟩
  rw [h.wordAddr hT hidx]
  exact hidle.accessible

/-- An update that finds its bits set leaves the words as they are, and no other one does. -/
theorem same_orAt {d : ℕ} {mask : BitVec 64} : T.Same n m (orAt m d mask) ↔
    ∀ b, mask.getLsbD b = true → T.Within n (8 * d + b) → bit m (8 * d + b) = true := by
  constructor
  · intro h b hb hin
    rw [← h.bit hin]
    exact (bit_orAt _).mpr (Or.inr ⟨by omega, by rwa [Nat.add_sub_cancel_left]⟩)
  · intro h w hw
    refine word_eq fun b hb ↦ ?_
    rw [Bool.eq_iff_iff, bit_orAt]
    refine ⟨?_, Or.inl⟩
    rintro (hbit | ⟨hle, hmask⟩)
    · exact hbit
    · have hin : T.Within n (64 * (T.base + w) + b) := by
        rw [Within, show (64 * (T.base + w) + b) / 64 = T.base + w by omega]
        omega
      rw [← Nat.add_sub_cancel' hle] at hin ⊢
      exact h _ hmask hin

end Words

/-! ## The loop -/

section Loop

variable {T} {m m' : Memory} {amount n page : ℕ}

theorem orPages_below (h : T.orPages amount m page = .ok m') : Below m m' := by
  induction amount generalizing m page with
  | zero =>
    rw [orPages, Except.ok.injEq] at h
    exact h ▸ Below.refl m
  | succ amount ih =>
    rw [orPages] at h
    split at h
    · exact below_orAt.trans (ih h)
    · simp at h

/-- **When a loop that returns has left the first words as they are**: none of its updates sets a
new bit there. -/
theorem same_iff_of_orPages (hT : T.Reads n)
    (hidx : ∀ q, page ≤ q → q < page + amount → q / 32768 % 2 ^ 16 < n)
    (hrun : T.orPages amount m page = .ok m') :
    T.Same n m m' ↔ ∀ q, page ≤ q → q < page + amount → T.NoNew n m q := by
  induction amount generalizing m page with
  | zero =>
    rw [orPages, Except.ok.injEq] at hrun
    subst hrun
    exact ⟨fun _ q h1 h2 ↦ absurd h1 (by omega), fun _ w _ ↦ rfl⟩
  | succ amount ih =>
    have hidx' : ∀ q, page + 1 ≤ q → q < page + 1 + amount → q / 32768 % 2 ^ 16 < n :=
      fun q h1 h2 ↦ hidx q (by omega) (by omega)
    rw [orPages] at hrun
    split at hrun
    · constructor
      · intro hsame q h1 h2
        -- the bits of the updates only add up, so each of them has changed nothing
        obtain ⟨hfirst, hrest⟩ := hsame.between below_orAt (orPages_below hrun)
        rcases Nat.eq_or_lt_of_le h1 with rfl | hlt
        · exact same_orAt.mp hfirst
        · exact hfirst.symm.noNew hT (hidx q h1 h2) ((ih hidx' hrun).mp hrest q hlt (by omega))
      · intro hnew
        have hfirst : T.Same n m (orAt m (T.wordAddr m page) (bitMask (page % 64))) :=
          same_orAt.mpr (hnew page (le_refl page) (by omega))
        refine hfirst.trans ((ih hidx' hrun).mpr fun q h1 h2 ↦ ?_)
        exact hfirst.noNew hT (hidx q (by omega) (by omega)) (hnew q (by omega) (by omega))
    · simp at hrun

/-- **When the loop returns and leaves the bitmap as it is**: each of its updates can be made and
sets no new bit. -/
theorem orPages_same_iff (hT : T.Reads 8192)
    (hidx : ∀ q, page ≤ q → q < page + amount → q / 32768 % 2 ^ 16 < 8192) :
    (∃ m', T.orPages amount m page = .ok m' ∧ T.Same 8192 m m') ↔
      ∀ q, page ≤ q → q < page + amount → T.Idle m q := by
  induction amount generalizing m page with
  | zero => exact ⟨fun _ q h1 h2 ↦ absurd h1 (by omega), fun _ ↦ ⟨m, rfl, fun _ _ ↦ rfl⟩⟩
  | succ amount ih =>
    have hidx' : ∀ q, page + 1 ≤ q → q < page + 1 + amount → q / 32768 % 2 ^ 16 < 8192 :=
      fun q h1 h2 ↦ hidx q (by omega) (by omega)
    rw [orPages]
    constructor
    · rintro ⟨m', hrun, hsame⟩
      split at hrun
      · rename_i hacc
        obtain ⟨hfirst, hrest⟩ := hsame.between below_orAt (orPages_below hrun)
        have hidle := (ih hidx').mp ⟨m', hrun, hrest⟩
        intro q h1 h2
        rcases Nat.eq_or_lt_of_le h1 with rfl | hlt
        · exact ⟨hacc, same_orAt.mp hfirst⟩
        · exact hfirst.symm.idle hT (hidx q h1 h2) (hidle q hlt (by omega))
      · simp at hrun
    · intro hidle
      have hpage := hidle page (le_refl page) (by omega)
      have hfirst : T.Same 8192 m (orAt m (T.wordAddr m page) (bitMask (page % 64))) :=
        same_orAt.mpr hpage.noNew
      obtain ⟨m', hrun, hrest⟩ := (ih hidx').mpr fun q h1 h2 ↦
        hfirst.idle hT (hidx q (by omega) (by omega)) (hidle q (by omega) (by omega))
      exact ⟨m', by rw [if_pos hpage.accessible, hrun], hfirst.trans hrest⟩

end Loop

/-! ## Freeing what was marked -/

/-- What is expected of freeing: after marking and freeing the range the bitmap is as before. -/
def Restores (m : Memory) (virt amount : ℕ) : Prop :=
  ∃ m₁ m₂, T.vmMarkPagesUsed m virt amount = .ok m₁ ∧ T.vmFreePages m₁ virt amount = .ok m₂ ∧
    T.Same 8192 m m₂

/-- How far `KERNEL_ADDR_SPACE` is below `KERNEL_VIRTUAL_BASE`, in pages. -/
abbrev freeOffset : ℕ := (kernelVirtualBase - kernelAddrSpace) / archPageSize

/-- The 16 pointers lead to the 16 chunks. -/
def Intact (m : Memory) : Prop :=
  ∀ idx, idx < 16 → T.entry m idx = 8 * (T.base + 512 * idx)

section Freeing

variable {T} {m m' : Memory} {virt amount page : ℕ}

/-- The pages the two calls start with. -/
theorem first_pages (hbase : kernelVirtualBase ≤ virt)
    (hend : virt + archPageSize * amount ≤ 2 ^ 64)
    (hpage : page = (virt - kernelVirtualBase) / archPageSize) :
    (virt + 2 ^ 64 - kernelVirtualBase) % 2 ^ 64 / archPageSize = page ∧
    (virt + 2 ^ 64 - kernelAddrSpace) % 2 ^ 64 / archPageSize = page + freeOffset ∧
    page + amount ≤ kernelPages := by
  dsimp only [kernelVirtualBase, kernelAddrSpace, archPageSize, freeOffset, kernelPages] at *
  omega

/-- A call to free that returns, on pages of the kernel. -/
theorem vmFreePages_eq (hbase : kernelVirtualBase ≤ virt)
    (hend : virt + archPageSize * amount ≤ 2 ^ 64)
    (hpage : page = (virt - kernelVirtualBase) / archPageSize) :
    T.vmMarkPagesUsed m virt amount = T.orPages amount m page ∧
    T.vmFreePages m virt amount = T.orPages amount m (page + freeOffset) := by
  obtain ⟨h1, h2, -⟩ := first_pages hbase hend hpage
  simp only [vmMarkPagesUsed, vmFreePages, vmMarkPagesFree, h1, h2, and_self]

theorem ptrIndex_lt {q : ℕ} (h : q < kernelPages + freeOffset) :
    q / 32768 % 2 ^ 16 < 8192 := by
  dsimp only [kernelPages, freeOffset, kernelVirtualBase, kernelAddrSpace, archPageSize] at h
  omega

/-- Marking and freeing restore the bitmap when neither sets a new bit. -/
theorem restores_iff (hT : T.Reads 8192) (hbase : kernelVirtualBase ≤ virt)
    (hend : virt + archPageSize * amount ≤ 2 ^ 64)
    (hpage : page = (virt - kernelVirtualBase) / archPageSize) :
    T.Restores m virt amount ↔ ∀ q, page ≤ q → q < page + amount →
      T.Idle m q ∧ T.Idle m (q + freeOffset) := by
  obtain ⟨-, -, hle⟩ := first_pages hbase hend hpage
  have hused : ∀ q, page ≤ q → q < page + amount → q / 32768 % 2 ^ 16 < 8192 :=
    fun q _ h2 ↦ ptrIndex_lt (by omega)
  have hfree : ∀ q, page + freeOffset ≤ q → q < page + freeOffset + amount →
      q / 32768 % 2 ^ 16 < 8192 := fun q _ h2 ↦ ptrIndex_lt (by omega)
  have hcall := fun m ↦ vmFreePages_eq (T := T) (m := m) hbase hend hpage
  rw [Restores]
  simp only [(hcall _).1, (hcall _).2]
  constructor
  · rintro ⟨m₁, m₂, hmark, hrun, hsame⟩
    -- the bits of the two calls only add up, so each of them has changed nothing
    obtain ⟨hfirst, hsecond⟩ := hsame.between (orPages_below hmark) (orPages_below hrun)
    have hidle := (orPages_same_iff hT hused).mp ⟨m₁, hmark, hfirst⟩
    have hidle' := (orPages_same_iff hT hfree).mp ⟨m₂, hrun, hsecond⟩
    intro q h1 h2
    exact ⟨hidle q h1 h2, hfirst.symm.idle hT (hfree _ (by omega) (by omega))
      (hidle' _ (by omega) (by omega))⟩
  · intro hidle
    obtain ⟨m₁, hmark, hfirst⟩ := (orPages_same_iff hT hused).mpr fun q h1 h2 ↦ (hidle q h1 h2).1
    obtain ⟨m₂, hrun, hsecond⟩ := (orPages_same_iff (m := m₁) hT hfree).mpr fun q h1 h2 ↦ by
      obtain ⟨x, rfl⟩ := Nat.exists_eq_add_of_le' (show freeOffset ≤ q by omega)
      exact hfirst.idle hT (hfree _ h1 h2) (hidle x (by omega) (by omega)).2
    exact ⟨m₁, m₂, hmark, hrun, hfirst.trans hsecond⟩

/-- Where the scan finds a word, as long as the pointers are intact. -/
theorem Intact.scan_addr (hint : T.Intact m) {idx sub : ℕ} (hi : idx < 16) (hj : sub < 512) :
    (T.entry m idx + 8 * sub) % 2 ^ 64 = 8 * (T.base + (512 * idx + sub)) := by
  have hfits := T.fits
  rw [hint idx hi]
  omega

/-- The scan sees nothing but the bitmap. -/
theorem Same.scanMarks (hT : T.Reads 8192) (h : T.Same 8192 m m') (hint : T.Intact m) :
    T.scanMarks m' amount = T.scanMarks m amount := by
  refine forRange_congr fun idx hi t ↦ forRange_congr fun sub hj t ↦ ?_
  rw [scanEntry, scanEntry, hT m m' h idx (by omega), hint.scan_addr hi hj, readAt_mul, readAt_mul,
    h _ (by omega)]

/-- What a call for addresses that returns an address of the kernel has done. -/
theorem vmAllocatePages_ok (h : T.vmAllocatePages m amount = .ok (virt, m'))
    (hbase : kernelVirtualBase ≤ virt) :
    ∃ v, T.scanMarks m amount = .error (.inr v) ∧ (v + kernelVirtualBase) % 2 ^ 64 = virt ∧
      T.vmMarkPagesUsed m virt amount = .ok m' := by
  unfold vmAllocatePages at h
  split at h
  · rw [Except.ok.injEq, Prod.mk.injEq] at h
    exact absurd (h.1 ▸ hbase) (by decide)
  · simp at h
  · rename_i v hscan
    dsimp only at h
    split at h
    · simp at h
    · rename_i m₁ hmark
      rw [Except.ok.injEq, Prod.mk.injEq] at h
      obtain ⟨hv, rfl⟩ := h
      rw [hv] at hmark
      exact ⟨v, hscan, hv, hmark⟩

/-- **Freeing undoes marking** on a range exactly when neither call has anything to set: every bit
either of them ORs in is set already, or lies outside the bitmap.  Then a range that was allocated
and freed is returned again. -/
theorem vmFreePages_restores_iff (hT : T.Reads 8192) (hint : T.Intact m)
    (hbase : kernelVirtualBase ≤ virt) (hend : virt + archPageSize * amount ≤ 2 ^ 64)
    (hpage : page = (virt - kernelVirtualBase) / archPageSize) :
    (T.Restores m virt amount ↔ ∀ q, page ≤ q → q < page + amount →
      T.Idle m q ∧ T.Idle m (q + freeOffset)) ∧
    ∀ m₁, T.vmAllocatePages m amount = .ok (virt, m₁) → T.Restores m virt amount →
      ∃ m₂ m₃, T.vmFreePages m₁ virt amount = .ok m₂ ∧
        T.vmAllocatePages m₂ amount = .ok (virt, m₃) := by
  refine ⟨restores_iff hT hbase hend hpage, fun m₁ halloc hres ↦ ?_⟩
  obtain ⟨v, hscan, hv, hmark⟩ := vmAllocatePages_ok halloc hbase
  obtain ⟨m₁', m₂, hmark', hfree, hsame⟩ := hres
  obtain rfl : m₁ = m₁' := by rwa [hmark, Except.ok.injEq] at hmark'
  -- marking set nothing new the first time, nor does it now
  obtain ⟨hcall, -⟩ := vmFreePages_eq (T := T) (m := m) hbase hend hpage
  obtain ⟨-, hcall₁⟩ := vmFreePages_eq (T := T) (m := m₁) hbase hend hpage
  obtain ⟨-, -, hle⟩ := first_pages hbase hend hpage
  rw [hcall] at hmark
  have hused : ∀ q, page ≤ q → q < page + amount → q / 32768 % 2 ^ 16 < 8192 :=
    fun q _ h2 ↦ ptrIndex_lt (by omega)
  have hfree' := hfree
  rw [hcall₁] at hfree'
  obtain ⟨hfirst, -⟩ := hsame.between (orPages_below hmark) (orPages_below hfree')
  have hidle := (orPages_same_iff hT hused).mp ⟨m₁, hmark, hfirst⟩
  obtain ⟨m₃, hagain, -⟩ := (orPages_same_iff (m := m₂) hT hused).mpr fun q h1 h2 ↦
    hsame.idle hT (hused q h1 h2) (hidle q h1 h2)
  refine ⟨m₂, m₃, hfree, ?_⟩
  unfold vmAllocatePages
  rw [hsame.scanMarks hT hint, hscan]
  simp only [hv, (vmFreePages_eq (T := T) (m := m₂) hbase hend hpage).1, hagain]

end Freeing

/-! ## The table of the kernel -/

/-- The kernel's table: it starts where the words start, so that a pointer is the word with its
index. -/
def kernelTable (base : ℕ) (accessible : ℕ → Bool) (fits : 8 * (base + 8192) ≤ 2 ^ 64) :
    ChunkTable where
  base := base
  entry m idx := (m (base + idx)).toNat
  accessible := accessible
  fits := fits

/-- `kernelPageMarks` when `LoadVirtualMemory` has set the 16 pointers, in a memory that is
otherwise `rest`. -/
def loadedMarks (base : ℕ) (rest : Memory) : Memory := fun w ↦
  if base ≤ w ∧ w < base + 8192 then
    if w < base + 16 then BitVec.ofNat 64 (8 * (base + 512 * (w - base))) else 0#64
  else rest w

section Kernel

variable {base : ℕ} {accessible : ℕ → Bool} {fits : 8 * (base + 8192) ≤ 2 ^ 64}

theorem reads_kernelTable (n : ℕ) : (kernelTable base accessible fits).Reads n :=
  fun _ _ h idx hidx ↦ congrArg BitVec.toNat (h idx hidx)

theorem loadedMarks_pointer (rest : Memory) {idx : ℕ} (h : idx < 16) :
    loadedMarks base rest (base + idx) = BitVec.ofNat 64 (8 * (base + 512 * idx)) := by
  rw [loadedMarks, if_pos (by omega), if_pos (by omega), Nat.add_sub_cancel_left]

theorem intact_iff {m : Memory} : (kernelTable base accessible fits).Intact m ↔
    ∀ idx, idx < 16 → m (base + idx) = BitVec.ofNat 64 (8 * (base + 512 * idx)) := by
  refine forall₂_congr fun idx hidx ↦ ?_
  have hlt : 8 * (base + 512 * idx) < 2 ^ 64 := by omega
  rw [← BitVec.toNat_inj, BitVec.toNat_ofNat, Nat.mod_eq_of_lt hlt]
  rfl

theorem intact_loadedMarks (rest : Memory) :
    (kernelTable base accessible fits).Intact (loadedMarks base rest) :=
  intact_iff.mpr fun _ h ↦ loadedMarks_pointer rest h

end Kernel

/-! ### The bitmap of a kernel at 2 MiB -/

theorem fits_at2mib : 8 * (0x1FFFFFFFF0040000 + 8192) ≤ 2 ^ 64 := by decide

/-- A kernel that has its bitmap 2 MiB from `KERNEL_VIRTUAL_BASE` on, all memory being mapped. -/
def tableAt2mib : ChunkTable :=
  kernelTable 0x1FFFFFFFF0040000 (fun _ ↦ true) fits_at2mib

/-- Its bitmap with the pointers set. -/
def marksAt2mib : Memory := loadedMarks 0x1FFFFFFFF0040000 fun _ ↦ 0#64

/-- The same with page 1024 marked. -/
def marked1024 : Memory := orAt marksAt2mib (8 * 0x1FFFFFFFF0040010) 1#64

theorem reads_tableAt2mib : tableAt2mib.Reads 8192 := reads_kernelTable 8192

theorem intact_marked1024 : tableAt2mib.Intact marked1024 := by
  intro idx hidx
  have h : ∀ i : Fin 16, tableAt2mib.entry marked1024 i = 8 * (tableAt2mib.base + 512 * i) := by
    decide +kernel
  exact h ⟨idx, hidx⟩

/-- The one bit of the mask of page 1056. -/
theorem bitMask_32 {b : ℕ} (hb : (bitMask 32).getLsbD b = true) : b = 0 := by
  have hlt := BitVec.lt_of_getLsbD hb
  rw [getLsbD_bitMask hlt, decide_eq_true_iff] at hb
  omega

/-- The mask of page 1056 is that of page 1024, which is marked, and what is freed lies outside the
bitmap. -/
theorem vmFreePages_restores_iff_1056 :
    markBit (fun w ↦ marked1024 (0x1FFFFFFFF0040000 + w)) 1056 = false ∧
      tableAt2mib.Restores marked1024 (kernelVirtualBase + 1056 * archPageSize) 1 := by
  have hused : tableAt2mib.wordAddr marked1024 1056 = 8 * 0x1FFFFFFFF0040010 := by decide +kernel
  have hfree : tableAt2mib.wordAddr marked1024 (1056 + freeOffset) = 8 * 57360 := by decide +kernel
  have hpage : 1056 = (kernelVirtualBase + 1056 * archPageSize - kernelVirtualBase) /
      archPageSize := by decide
  refine ⟨by decide +kernel, ((vmFreePages_restores_iff reads_tableAt2mib intact_marked1024
    (by decide) (by decide) hpage).1).mpr fun q h1 h2 ↦ ?_⟩
  obtain rfl : q = 1056 := by omega
  refine ⟨⟨rfl, fun b hb _ ↦ ?_⟩, ⟨rfl, fun b hb hin ↦ ?_⟩⟩
  · rw [hused, bitMask_32 hb]
    decide +kernel
  · rw [hfree, bitMask_32 hb, Within] at hin
    exact absurd hin (by decide +kernel)

/-- **What is freed stays marked**: page 1024 is marked, a word far away is changed when it is
freed, and its mark bit is still set. -/
theorem vmFreePages_keeps_mark : ∃ m₁ m₂,
    tableAt2mib.vmMarkPagesUsed marksAt2mib (kernelVirtualBase + 1024 * archPageSize) 1 = .ok m₁ ∧
      tableAt2mib.vmFreePages m₁ (kernelVirtualBase + 1024 * archPageSize) 1 = .ok m₂ ∧
      markBit (fun w ↦ marksAt2mib (0x1FFFFFFFF0040000 + w)) 1024 = false ∧
      markBit (fun w ↦ m₂ (0x1FFFFFFFF0040000 + w)) 1024 = true ∧
      ¬ tableAt2mib.Restores marksAt2mib (kernelVirtualBase + 1024 * archPageSize) 1 := by
  refine ⟨_, _, rfl, rfl, by decide +kernel, by decide +kernel, fun h ↦ ?_⟩
  have hpage : 1024 = (kernelVirtualBase + 1024 * archPageSize - kernelVirtualBase) /
      archPageSize := by decide
  obtain ⟨hidle, -⟩ := (restores_iff reads_tableAt2mib (by decide) (by decide) hpage).mp h 1024
    (le_refl _) (by decide)
  have hused : tableAt2mib.wordAddr marksAt2mib 1024 = 8 * 0x1FFFFFFFF0040010 := by decide +kernel
  have hbit := hidle.noNew 0 (by decide +kernel) (by rw [hused, Within]; decide +kernel)
  rw [hused] at hbit
  exact absurd hbit (by decide +kernel)

/-! ## Sequences of calls -/

/-- The number of the page `VM_MarkPagesUsed` starts with. -/
def pageNumber (virt : ℕ) : ℕ := (virt + 2 ^ 64 - kernelVirtualBase) % 2 ^ 64 / archPageSize

/-- The memory is what some calls of `VM_MarkPagesUsed` and `VM_AllocatePages` have made of `start`.
The list has the ranges that were marked, as first page and number, the latest first. -/
inductive Reached (start : Memory) : Memory → List (ℕ × ℕ) → Prop
  | start : Reached start start []
  | mark {m m' : Memory} {log : List (ℕ × ℕ)} {virt amount : ℕ} :
    Reached start m log → kernelVirtualBase ≤ virt → virt < 2 ^ 64 →
    T.vmMarkPagesUsed m virt amount = .ok m' →
    Reached start m' ((pageNumber virt, amount) :: log)
  | allocate {m m' : Memory} {log : List (ℕ × ℕ)} {virt amount : ℕ} :
    Reached start m log → T.vmAllocatePages m amount = .ok (virt, m') →
    Reached start m' (if virt = 0 then log else (pageNumber virt, amount) :: log)

/-- The page is in one of the ranges. -/
def Marked (log : List (ℕ × ℕ)) (page : ℕ) : Prop := ∃ r ∈ log, r.1 ≤ page ∧ page < r.1 + r.2

/-- `VM_AllocatePages` takes the page for free. -/
def ReadsFree (m : Memory) (page : ℕ) : Prop :=
  readAt m ((T.entry m (page / 32768) + 8 * (page / 64 % 512)) % 2 ^ 64) &&& bitMask (page % 64) =
    0#64

/-- What is expected of the two: the pointers stay intact, and a page that is in no marked range
reads as free. -/
def Separate (start : Memory) : Prop := ∀ m log, T.Reached start m log →
  T.Intact m ∧ ∀ page, page < kernelPages → ¬ Marked log page → T.ReadsFree m page

section Sequences

variable {T} {m m' start : Memory} {log : List (ℕ × ℕ)} {virt amount n : ℕ}

/-- The scan returns an address of the topmost 2 GiB, before the base is added. -/
theorem scanMarks_lt {v : ℕ} (h : T.scanMarks m amount = .error (.inr v)) : v < 2 ^ 31 := by
  refine (forRange_inv (P := fun _ (st : Scan) ↦ st.virt < 2 ^ 31)
    (Q := fun e ↦ ∀ v, e = .inr v → v < 2 ^ 31) (by decide) fun idx hi t ht ↦ ?_).2 _ h v rfl
  refine forRange_inv (P := fun _ (st : Scan) ↦ st.virt < 2 ^ 31) ht fun sub hj t ht ↦ ?_
  have hpage : (idx * 32768 + sub * 64 + 64) * archPageSize ≤ 2 ^ 31 := by
    dsimp only [archPageSize]; omega
  unfold scanEntry
  generalize (T.entry m idx + 8 * sub) % 2 ^ 64 = addr
  dsimp only
  split
  · obtain ⟨hok, herror⟩ := scanWord_lt (readAt m addr) amount hpage ht
    rcases hw : scanWord (readAt m addr) (idx * 32768 + sub * 64) amount t with v | t'
    · refine ⟨fun t' h ↦ by simp [Except.mapError] at h, fun e h v' hv ↦ ?_⟩
      rw [Except.mapError, Except.error.injEq] at h
      rw [← h, Sum.inr.injEq] at hv
      exact herror v' (hv ▸ hw)
    · refine ⟨fun t'' h ↦ ?_, fun e h ↦ by simp [Except.mapError] at h⟩
      rw [Except.mapError, Except.ok.injEq] at h
      exact hok t'' (h ▸ hw)
  · refine ⟨fun t' h ↦ by simp at h, fun e h v hv ↦ ?_⟩
    rw [Except.error.injEq] at h
    simp [← h] at hv

/-- A call for addresses marks the range it returns, and does nothing when it returns none. -/
theorem vmAllocatePages_cases (h : T.vmAllocatePages m amount = .ok (virt, m')) :
    virt = 0 ∧ m' = m ∨ virt ≠ 0 ∧ T.orPages amount m (pageNumber virt) = .ok m' := by
  unfold vmAllocatePages at h
  split at h
  · rw [Except.ok.injEq, Prod.mk.injEq] at h
    exact Or.inl ⟨h.1.symm, h.2.symm⟩
  · simp at h
  · rename_i v hscan
    have hlt := scanMarks_lt hscan
    dsimp only at h
    split at h
    · simp at h
    · rename_i m₁ hmark
      rw [Except.ok.injEq, Prod.mk.injEq] at h
      obtain ⟨hv, rfl⟩ := h
      rw [hv] at hmark
      refine Or.inr ⟨?_, hmark⟩
      dsimp only [kernelVirtualBase] at hv
      omega

/-- Addresses are those of the topmost 2 GiB. -/
theorem vmAllocatePages_kernel (h : T.vmAllocatePages m amount = .ok (virt, m')) :
    virt = 0 ∨ kernelVirtualBase ≤ virt ∧ virt < 2 ^ 64 := by
  unfold vmAllocatePages at h
  split at h
  · rw [Except.ok.injEq, Prod.mk.injEq] at h
    exact Or.inl h.1.symm
  · simp at h
  · rename_i v hscan
    have hlt := scanMarks_lt hscan
    dsimp only at h
    split at h
    · simp at h
    · rw [Except.ok.injEq, Prod.mk.injEq] at h
      dsimp only [kernelVirtualBase] at h ⊢
      omega

/-- **What holds after every sequence of calls**: what holds at the start and is kept by marking a
range. -/
theorem Reached.induct {P : Memory → List (ℕ × ℕ) → Prop} (h : T.Reached start m log)
    (h0 : P start [])
    (hstep : ∀ m m' log page amount, P m log → T.orPages amount m page = .ok m' →
      P m' ((page, amount) :: log)) : P m log := by
  induction h with
  | start => exact h0
  | mark _ _ _ hrun ih => exact hstep _ _ _ _ _ ih hrun
  | allocate _ hrun ih =>
    rcases vmAllocatePages_cases hrun with ⟨hv, rfl⟩ | ⟨hv, hmark⟩
    · rw [if_pos hv]
      exact ih
    · rw [if_neg hv]
      exact hstep _ _ _ _ _ ih hmark

theorem ptrIndex_lt_16 {q : ℕ} (h : q < kernelPages) : q / 32768 % 2 ^ 16 < 16 := by
  dsimp only [kernelPages] at h
  omega

/-- **When the first 16 words have been left as they are**: no page of a marked range sets a new bit
there. -/
theorem Reached.same_iff (h : T.Reached start m log) (hT : T.Reads 16)
    (hends : ∀ r ∈ log, r.1 + r.2 ≤ kernelPages) :
    T.Same 16 start m ↔ ∀ q, Marked log q → T.NoNew 16 start q := by
  have hboth := h.induct (P := fun m log ↦ Below start m ∧ ((∀ r ∈ log, r.1 + r.2 ≤ kernelPages) →
    (T.Same 16 start m ↔ ∀ q, Marked log q → T.NoNew 16 start q)))
    ⟨Below.refl start, fun _ ↦ ⟨fun _ q hq ↦ ?_, fun _ w _ ↦ rfl⟩⟩ ?_
  · exact hboth.2 hends
  · obtain ⟨r, hr, -⟩ := hq
    exact absurd hr List.not_mem_nil
  · rintro m m' log page amount ⟨hbelow, ih⟩ hrun
    refine ⟨hbelow.trans (orPages_below hrun), fun hends ↦ ?_⟩
    have ih' := ih fun r hr ↦ hends r (List.mem_cons_of_mem _ hr)
    have hend := hends _ List.mem_cons_self
    have hidx : ∀ q, page ≤ q → q < page + amount → q / 32768 % 2 ^ 16 < 16 :=
      fun q _ h2 ↦ ptrIndex_lt_16 (lt_of_lt_of_le h2 hend)
    have hstep := same_iff_of_orPages hT hidx hrun
    constructor
    · intro hsame
      obtain ⟨hfirst, hlast⟩ := hsame.between hbelow (orPages_below hrun)
      rintro q ⟨r, hr, h1, h2⟩
      rcases List.mem_cons.mp hr with rfl | hr
      · exact hfirst.symm.noNew hT (hidx q h1 h2) (hstep.mp hlast q h1 h2)
      · exact ih'.mp hfirst q ⟨r, hr, h1, h2⟩
    · intro hnew
      have hfirst : T.Same 16 start m := ih'.mpr fun q hq ↦ by
        obtain ⟨r, hr, hq⟩ := hq
        exact hnew q ⟨r, List.mem_cons_of_mem _ hr, hq⟩
      refine hfirst.trans (hstep.mpr fun q h1 h2 ↦ ?_)
      exact hfirst.noNew hT (hidx q h1 h2) (hnew q ⟨_, List.mem_cons_self, h1, h2⟩)

/-- Where the word of a page is, as long as the pointers are intact. -/
theorem Intact.wordAddr_eq (hint : T.Intact m) {q : ℕ} (hq : q < kernelPages) :
    T.wordAddr m q = 8 * (T.base + (512 * (q / 32768) + q / 64)) % 2 ^ 64 := by
  dsimp only [kernelPages] at hq
  rw [wordAddr, show q / 32768 % 2 ^ 16 = q / 32768 by omega,
    show q / 64 % 2 ^ 16 = q / 64 by omega, hint _ (by omega)]
  congr 1
  omega

/-- As long as the pointers are intact, the bits of the first 16 words that a page sets are those
`SetsMark` names. -/
theorem Intact.noNew_iff (hint : T.Intact m) {q : ℕ} (hq : q < kernelPages) :
    T.NoNew 16 m q ↔ ∀ p, p < 1024 → SetsMark q p → bit m (64 * T.base + p) = true := by
  have hfits := T.fits
  have haddr := hint.wordAddr_eq hq
  dsimp only [kernelPages] at hq
  have hmod : q % 64 % 32 = q % 32 := Nat.mod_mod_of_dvd _ (by decide)
  constructor
  · intro hnew p hp hset
    obtain ⟨hword, hbit⟩ := hset
    have hsum : 8 * T.wordAddr m q + p % 64 = 64 * T.base + p := by omega
    have hlt : p % 64 < 64 := Nat.mod_lt _ (by decide)
    rw [← hsum]
    refine hnew (p % 64) ?_ ?_
    · rw [getLsbD_bitMask hlt, decide_eq_true_iff, hmod]
      exact hbit
    · rw [hsum, Within]
      omega
  · intro hset b hb hin
    have hlt := BitVec.lt_of_getLsbD hb
    rw [getLsbD_bitMask hlt, decide_eq_true_iff, hmod] at hb
    obtain ⟨h1, h2⟩ := hin
    have hsum : 8 * T.wordAddr m q + b = 64 * T.base + (64 * (512 * (q / 32768) + q / 64) + b) := by
      omega
    rw [hsum] at h2 ⊢
    refine hset _ (by omega) ⟨by omega, ?_⟩
    rwa [show (64 * (512 * (q / 32768) + q / 64) + b) % 64 = b by omega]

end Sequences

section Overlap

variable {base : ℕ} {accessible : ℕ → Bool} {fits : 8 * (base + 8192) ≤ 2 ^ 64} {m : Memory}

/-- The first pointer is the word of page 31, and has its bit set. -/
theorem Intact.not_readsFree (hk : kernelVirtualBase ≤ 8 * base)
    (hint : (kernelTable base accessible fits).Intact m) :
    ¬ (kernelTable base accessible fits).ReadsFree m 31 := by
  have haddr := hint.scan_addr (show 0 < 16 by decide) (show 0 < 512 by decide)
  have hword : m base = BitVec.ofNat 64 (8 * base) := intact_iff.mp hint 0 (by decide)
  have hread : readAt m (8 * base) = BitVec.ofNat 64 (8 * base) := by rw [readAt_mul, hword]
  intro hfree
  have hzero : BitVec.ofNat 64 (8 * base) &&& bitMask 31 = 0#64 := by
    rw [← hread]
    exact haddr ▸ hfree
  have hbit : (BitVec.ofNat 64 (8 * base) &&& bitMask 31).getLsbD 31 = false := by rw [hzero]; rfl
  have htest : (8 * base).testBit 31 = true := by
    rw [Nat.testBit_eq_decide_div_mod_eq, decide_eq_true_iff]
    dsimp only [kernelVirtualBase] at hk
    omega
  rw [BitVec.getLsbD_and, BitVec.getLsbD_ofNat, htest, getLsbD_bitMask (by decide)] at hbit
  exact absurd hbit (by decide)

end Overlap

/-- **The pointers and the words are not separate**, wherever the array is.  Page 31 reads as used
from the start and for as long as the pointers are intact.  The pointers are intact as long as every
bit of the first 16 words that a marked page sets is one that they have set themselves, and no
longer. -/
theorem loadedMarks_overlap {base : ℕ} (accessible : ℕ → Bool)
    (fits : 8 * (base + 8192) ≤ 2 ^ 64) (hk : kernelVirtualBase ≤ 8 * base) (rest : Memory) :
    ¬ (kernelTable base accessible fits).Separate (loadedMarks base rest) ∧
    ∀ m log, (kernelTable base accessible fits).Reached (loadedMarks base rest) m log →
      ((kernelTable base accessible fits).Intact m →
        ¬ (kernelTable base accessible fits).ReadsFree m 31) ∧
      ((∀ r ∈ log, r.1 + r.2 ≤ kernelPages) →
        ((kernelTable base accessible fits).Intact m ↔ ∀ q, Marked log q →
          ∀ p, p < 1024 → SetsMark q p → bit (loadedMarks base rest) (64 * base + p) = true)) := by
  refine ⟨fun hsep ↦ ?_, fun m log hrun ↦ ⟨Intact.not_readsFree hk, fun hends ↦ ?_⟩⟩
  · obtain ⟨hint, hfree⟩ := hsep _ _ Reached.start
    refine hint.not_readsFree hk (hfree 31 (by decide) ?_)
    rintro ⟨r, hr, -⟩
    exact absurd hr List.not_mem_nil
  · have hsame : (kernelTable base accessible fits).Intact m ↔
        (kernelTable base accessible fits).Same 16 (loadedMarks base rest) m := by
      rw [intact_iff]
      refine forall₂_congr fun idx hidx ↦ ?_
      rw [← loadedMarks_pointer rest hidx]
      rfl
    rw [hsame, hrun.same_iff (reads_kernelTable 16) hends]
    refine forall₂_congr fun q hq ↦ ?_
    obtain ⟨r, hr, -, h2⟩ := hq
    exact (intact_loadedMarks rest).noNew_iff (lt_of_lt_of_le h2 (hends r hr))

/-- Marking one page of that kernel. -/
theorem reached_one (virt : ℕ) {page : ℕ} (hbase : kernelVirtualBase ≤ virt) (hlt : virt < 2 ^ 64)
    (hpage : pageNumber virt = page) : tableAt2mib.Reached marksAt2mib
      (orAt marksAt2mib (tableAt2mib.wordAddr marksAt2mib page) (bitMask (page % 64)))
      [(page, 1)] := by
  subst hpage
  have hone : tableAt2mib.orPages 1 marksAt2mib (pageNumber virt) = .ok (orAt marksAt2mib
      (tableAt2mib.wordAddr marksAt2mib (pageNumber virt)) (bitMask (pageNumber virt % 64))) := by
    rw [orPages, if_pos (by rfl), orPages]
  exact Reached.mark Reached.start hbase hlt hone

/-- **A pointer is lost**: marking page 0 sets bit 0 of the first pointer, and before that page 31
reads as used without having been marked. -/
theorem loadedMarks_marks_pointer :
    (∃ m, tableAt2mib.Reached marksAt2mib m [(0, 1)] ∧
      tableAt2mib.entry m 0 = 0xFFFFFFFF80200001 ∧ ¬ tableAt2mib.Intact m) ∧
    ¬ tableAt2mib.ReadsFree marksAt2mib 31 ∧ ¬ tableAt2mib.Separate marksAt2mib := by
  have hrun := reached_one kernelVirtualBase (le_refl _) (by decide)
    (show pageNumber kernelVirtualBase = 0 by decide)
  generalize hm : orAt marksAt2mib _ _ = m at hrun
  have hentry : tableAt2mib.entry m 0 = 0xFFFFFFFF80200001 := by
    rw [← hm]
    decide +kernel
  have hlost : ¬ tableAt2mib.Intact m := by
    intro hint
    have hfirst := hint 0 (by decide)
    rw [hentry] at hfirst
    exact absurd hfirst (by decide +kernel)
  exact ⟨⟨m, hrun, hentry, hlost⟩, Intact.not_readsFree (by decide) (intact_loadedMarks _),
    fun hsep ↦ hlost (hsep _ _ hrun).1⟩

/-- A page whose mask the first pointer has set does no harm to it. -/
theorem loadedMarks_overlap_63 : ¬ tableAt2mib.Separate marksAt2mib ∧
    ∃ m, tableAt2mib.Reached marksAt2mib m [(63, 1)] ∧ tableAt2mib.Intact m := by
  have hrun := reached_one (kernelVirtualBase + 63 * archPageSize) (by decide) (by decide)
    (show pageNumber _ = 63 by decide)
  generalize orAt marksAt2mib _ _ = m at hrun
  have hset : ∀ p : Fin 64, 31 ≤ (p : ℕ) →
      bit marksAt2mib (64 * 0x1FFFFFFFF0040000 + p) = true := by decide +kernel
  obtain ⟨hsep, hstate⟩ := loadedMarks_overlap (fun _ ↦ true) fits_at2mib (by decide) fun _ ↦ 0#64
  refine ⟨hsep, m, hrun, ((hstate m _ hrun).2 ?_).mpr ?_⟩
  · intro r hr
    rw [List.mem_singleton.mp hr]
    decide
  · rintro q ⟨r, hr, h1, h2⟩ p hp ⟨hword, hbit⟩
    rw [List.mem_singleton.mp hr] at h1 h2
    obtain rfl : q = 63 := by omega
    exact hset ⟨p, by omega⟩ (show 31 ≤ p by omega)

end ChunkTable

end CubikOS

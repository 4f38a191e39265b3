import CubikOS.Arch.ChunkTable

/-!
# What marking pages does to the kernel's bitmap

`VM_MarkPagesUsed` on the table of the kernel, whose 16 pointers are the first words of the bitmap
that is marked.  They are read again for each page.

As long as no page of the range changes the pointer that a later one is reached through
(`Undisturbed`), the bits that the pages set are those that `SetsMark` names, and the call does what
is expected of it exactly when these are the right ones (`MarksRange`).  A page that changes a
pointer takes away the chunk from `VM_AllocatePages`, which looks for the mark bits through the same
pointers, even where the bits themselves are right.
-/

set_option autoImplicit false

namespace CubikOS

open WordMemory

namespace ChunkTable

variable (T : ChunkTable)

/-! ## What is expected -/

/-- The mark bit of page `p`, where `VM_AllocatePages` looks for it. -/
def markPlace (m : Memory) (p : ℕ) : ℕ :=
  8 * ((T.entry m (p / 32768) + 8 * (p / 64 % 512)) % 2 ^ 64) + p % 64

/-- The mark bits that are set are those that were and those of the `amount` pages from `page`
on. -/
def SetsRange (m m' : Memory) (page amount : ℕ) : Prop := ∀ p, p < kernelPages →
  (bit m' (T.markPlace m p) = true ↔
    bit m (T.markPlace m p) = true ∨ page ≤ p ∧ p < page + amount)

/-- `VM_AllocatePages` looks for the mark bits where it did. -/
def KeepsPlaces (m m' : Memory) : Prop :=
  ∀ p, p < kernelPages → T.markPlace m' p = T.markPlace m p

/-! ## The conditions -/

/-- The pages of the range set the mark bits of the range. -/
structure MarksRange (m : Memory) (page amount : ℕ) : Prop where
  /-- The word that is updated for a page is there. -/
  accessible : ∀ q, page ≤ q → q < page + amount → T.accessible (T.wordAddr m q) = true
  /-- The mark bit of a page is set already, or some page of the range sets it. -/
  own : ∀ p, page ≤ p → p < page + amount →
    bit m (64 * T.base + p) = true ∨ ∃ q, page ≤ q ∧ q < page + amount ∧ SetsMark q p
  /-- A mark bit that a page of the range sets is set already, or belongs to the range. -/
  other : ∀ q p, page ≤ q → q < page + amount → p < kernelPages → SetsMark q p →
    bit m (64 * T.base + p) = true ∨ page ≤ p ∧ p < page + amount

/-- No page of the range sets a new bit of the pointer that a later one is reached through. -/
def Undisturbed (m : Memory) (page amount : ℕ) : Prop :=
  ∀ q q' p, page ≤ q → q < q' → q' < page + amount → p / 64 = q' / 32768 → SetsMark q p →
    bit m (64 * T.base + p) = true

/-- No page of the range sets a new bit of one of the 16 pointers. -/
def KeepsPointers (m : Memory) (page amount : ℕ) : Prop :=
  ∀ q p, page ≤ q → q < page + amount → p < 1024 → SetsMark q p → bit m (64 * T.base + p) = true

section Places

variable {T} {m m' : Memory} {page amount : ℕ}

theorem Intact.markPlace_eq (hint : T.Intact m) {p : ℕ} (hp : p < kernelPages) :
    T.markPlace m p = 64 * T.base + p := by
  dsimp only [kernelPages] at hp
  rw [markPlace, hint.scan_addr (show p / 32768 < 16 by omega) (show p / 64 % 512 < 512 by omega)]
  omega

/-- Where `VM_AllocatePages` looks for the mark bits says what the pointers are. -/
theorem Intact.keepsPlaces_iff (hint : T.Intact m) (hlt : ∀ idx, T.entry m' idx < 2 ^ 64) :
    T.KeepsPlaces m m' ↔ T.Intact m' := by
  refine ⟨fun h idx hidx ↦ ?_, fun h p hp ↦ by rw [h.markPlace_eq hp, hint.markPlace_eq hp]⟩
  have hp : 32768 * idx < kernelPages := by dsimp only [kernelPages]; omega
  have hplace := h (32768 * idx) hp
  have hmod := hlt idx
  rw [hint.markPlace_eq hp, markPlace, show 32768 * idx / 32768 = idx by omega] at hplace
  omega

theorem KeepsPointers.undisturbed (h : T.KeepsPointers m page amount)
    (hend : page + amount ≤ kernelPages) : T.Undisturbed m page amount := by
  intro q q' p h1 h2 h3 hp hset
  dsimp only [kernelPages] at hend
  exact h q p h1 (by omega) (by omega) hset

/-- What one page does to the mark bits when its pointer is intact. -/
theorem bit_update {q : ℕ} (hq : q < kernelPages)
    (hentry : T.entry m (q / 32768) = 8 * (T.base + 512 * (q / 32768))) {p : ℕ}
    (hp : p < kernelPages) :
    bit (orAt m (T.wordAddr m q) (bitMask (q % 64))) (64 * T.base + p) = true ↔
      bit m (64 * T.base + p) = true ∨ SetsMark q p := by
  have hfits := T.fits
  have hmod : q % 64 % 32 = q % 32 := Nat.mod_mod_of_dvd _ (by decide)
  dsimp only [kernelPages] at hq hp
  have haddr : T.wordAddr m q = 8 * (T.base + (512 * (q / 32768) + q / 64)) % 2 ^ 64 := by
    rw [wordAddr, show q / 32768 % 2 ^ 16 = q / 32768 by omega, hentry]
    congr 1
    omega
  rw [bit_orAt]
  refine or_congr_right ?_
  constructor
  · rintro ⟨hle, hb⟩
    have hlt := BitVec.lt_of_getLsbD hb
    rw [getLsbD_bitMask hlt, decide_eq_true_iff, hmod] at hb
    rw [SetsMark]
    omega
  · rintro ⟨hword, hbit⟩
    have hsum : 64 * T.base + p - 8 * T.wordAddr m q = p % 64 := by omega
    rw [hsum, getLsbD_bitMask (Nat.mod_lt _ (by decide)), decide_eq_true_iff, hmod]
    exact ⟨by omega, hbit⟩

end Places

/-! ## The loop -/

/-- A pointer is read from the word with its index. -/
def ReadsOwn : Prop :=
  ∀ m m' idx, m' (T.base + idx) = m (T.base + idx) → T.entry m' idx = T.entry m idx

/-- The pointers that the pages of the range are reached through are intact, and none of them
changes before it is used. -/
structure Ready (m : Memory) (page amount : ℕ) : Prop where
  /-- The pointers lead to their chunks. -/
  entry : ∀ q, page ≤ q → q < page + amount →
    T.entry m (q / 32768) = 8 * (T.base + 512 * (q / 32768))
  /-- None of them changes before its last use. -/
  undisturbed : T.Undisturbed m page amount

section Loop

variable {T} {m : Memory} {page amount : ℕ}

/-- The first page of the range leaves the pointers of the others as they are. -/
theorem Ready.step (hT : T.ReadsOwn) (h : T.Ready m page (amount + 1))
    (hend : page + (amount + 1) ≤ kernelPages) {m₁ : Memory}
    (hm₁ : orAt m (T.wordAddr m page) (bitMask (page % 64)) = m₁) :
    T.Ready m₁ (page + 1) amount ∧
    ∀ q, page + 1 ≤ q → q < page + 1 + amount → T.wordAddr m₁ q = T.wordAddr m q := by
  have hupdate {p : ℕ} (hp : p < kernelPages) := bit_update (p := p)
    (show page < kernelPages by omega) (h.entry page (le_refl page) (by omega)) hp
  rw [hm₁] at hupdate
  dsimp only [kernelPages] at *
  have hentry : ∀ q, page + 1 ≤ q → q < page + 1 + amount →
      T.entry m₁ (q / 32768) = T.entry m (q / 32768) := by
    intro q h1 h2
    refine hT m m₁ _ (word_eq fun b hb ↦ ?_)
    rw [show 64 * (T.base + q / 32768) + b = 64 * T.base + (64 * (q / 32768) + b) by omega,
      Bool.eq_iff_iff, hupdate (by omega)]
    refine ⟨?_, Or.inl⟩
    rintro (hset | hset)
    · exact hset
    · exact h.undisturbed page q _ (le_refl page) (by omega) (by omega) (by omega) hset
  refine ⟨⟨fun q h1 h2 ↦ ?_, fun q q' p h1 h2 h3 hp hset ↦ ?_⟩, fun q h1 h2 ↦ ?_⟩
  · rw [hentry q h1 h2, h.entry q (by omega) (by omega)]
  · refine (hupdate (by omega)).mpr (Or.inl ?_)
    exact h.undisturbed q q' p (by omega) h2 (by omega) hp hset
  · simp only [wordAddr, show q / 32768 % 2 ^ 16 = q / 32768 by omega, hentry q h1 h2]

/-- **When an undisturbed loop returns**: all of its words are there. -/
theorem Ready.orPages_returns (hT : T.ReadsOwn) (h : T.Ready m page amount)
    (hend : page + amount ≤ kernelPages) : (∃ m', T.orPages amount m page = .ok m') ↔
      ∀ q, page ≤ q → q < page + amount → T.accessible (T.wordAddr m q) = true := by
  induction amount generalizing m page with
  | zero => exact ⟨fun _ q h1 h2 ↦ absurd h1 (by omega), fun _ ↦ ⟨m, rfl⟩⟩
  | succ amount ih =>
    obtain ⟨h₁, haddr⟩ := h.step hT hend rfl
    rw [orPages]
    split
    · rename_i hacc
      rw [ih h₁ (by omega)]
      constructor
      · intro hrest q h1 h2
        rcases Nat.eq_or_lt_of_le h1 with rfl | hlt
        · exact hacc
        · exact haddr q hlt (by omega) ▸ hrest q hlt (by omega)
      · intro hall q h1 h2
        exact haddr q h1 h2 ▸ hall q (by omega) (by omega)
    · rename_i hacc
      constructor
      · rintro ⟨m', hrun⟩
        simp at hrun
      · intro hall
        exact absurd (hall page (le_refl page) (by omega)) hacc

/-- **The mark bits after an undisturbed loop**: those that were set, and those that one of the
pages sets. -/
theorem Ready.orPages_bit (hT : T.ReadsOwn) (h : T.Ready m page amount)
    (hend : page + amount ≤ kernelPages) {m' : Memory} (hrun : T.orPages amount m page = .ok m')
    {p : ℕ} (hp : p < kernelPages) : bit m' (64 * T.base + p) = true ↔
      bit m (64 * T.base + p) = true ∨ ∃ q, page ≤ q ∧ q < page + amount ∧ SetsMark q p := by
  induction amount generalizing m page with
  | zero =>
    rw [orPages, Except.ok.injEq] at hrun
    subst hrun
    refine ⟨Or.inl, ?_⟩
    rintro (h | ⟨q, h1, h2, -⟩)
    · exact h
    · omega
  | succ amount ih =>
    obtain ⟨h₁, -⟩ := h.step hT hend rfl
    rw [orPages] at hrun
    split at hrun
    · rw [ih h₁ (by omega) hrun,
        bit_update (by omega) (h.entry page (le_refl page) (by omega)) hp, or_assoc]
      refine or_congr_right ?_
      constructor
      · rintro (hset | ⟨q, h1, h2, hset⟩)
        · exact ⟨page, le_refl page, by omega, hset⟩
        · exact ⟨q, by omega, by omega, hset⟩
      · rintro ⟨q, h1, h2, hset⟩
        rcases Nat.eq_or_lt_of_le h1 with rfl | hlt
        · exact Or.inl hset
        · exact Or.inr ⟨q, hlt, by omega, hset⟩
    · simp at hrun

end Loop

/-! ## Exactly the right bits -/

section Exact

variable {T} {m : Memory} {page amount : ℕ}

/-- **When an undisturbed loop sets exactly the right bits.** -/
theorem Ready.setsRange_iff (hT : T.ReadsOwn) (hint : T.Intact m) (h : T.Ready m page amount)
    (hend : page + amount ≤ kernelPages) :
    (∃ m', T.orPages amount m page = .ok m' ∧ T.SetsRange m m' page amount) ↔
      T.MarksRange m page amount := by
  constructor
  · rintro ⟨m', hrun, hset⟩
    have hset' : ∀ p, p < kernelPages → ((bit m (64 * T.base + p) = true ∨
        ∃ q, page ≤ q ∧ q < page + amount ∧ SetsMark q p) ↔
          bit m (64 * T.base + p) = true ∨ page ≤ p ∧ p < page + amount) := fun p hp ↦ by
      rw [← h.orPages_bit hT hend hrun hp, ← hint.markPlace_eq hp]
      exact hset p hp
    refine ⟨(h.orPages_returns hT hend).mp ⟨m', hrun⟩, fun p h1 h2 ↦ ?_, fun q p h1 h2 hp hs ↦ ?_⟩
    · exact (hset' p (by omega)).mpr (Or.inr ⟨h1, h2⟩)
    · exact (hset' p hp).mp (Or.inr ⟨q, h1, h2, hs⟩)
  · intro hmarks
    obtain ⟨m', hrun⟩ := (h.orPages_returns hT hend).mpr hmarks.accessible
    refine ⟨m', hrun, fun p hp ↦ ?_⟩
    rw [hint.markPlace_eq hp, h.orPages_bit hT hend hrun hp]
    constructor
    · rintro (hset | ⟨q, h1, h2, hset⟩)
      · exact Or.inl hset
      · exact hmarks.other q p h1 h2 hp hset
    · rintro (hset | ⟨h1, h2⟩)
      · exact Or.inl hset
      · exact hmarks.own p h1 h2

theorem Intact.ready (hint : T.Intact m) (hun : T.Undisturbed m page amount)
    (hend : page + amount ≤ kernelPages) : T.Ready m page amount := by
  refine ⟨fun q _ h2 ↦ hint _ ?_, hun⟩
  dsimp only [kernelPages] at hend
  omega

/-- **When the pointers are still intact**: no page has set a new bit of one of them. -/
theorem Intact.keepsPointers_iff (hT : T.Reads 16) (hint : T.Intact m) {m' : Memory}
    (hend : page + amount ≤ kernelPages) (hrun : T.orPages amount m page = .ok m') :
    T.Same 16 m m' ↔ T.KeepsPointers m page amount := by
  rw [same_iff_of_orPages hT (fun q _ h2 ↦ ptrIndex_lt_16 (by omega)) hrun]
  constructor
  · intro hnew q p h1 h2 hp hset
    exact (hint.noNew_iff (by omega)).mp (hnew q h1 h2) p hp hset
  · intro hkeep q h1 h2
    exact (hint.noNew_iff (by omega)).mpr fun p hp hset ↦ hkeep q p h1 h2 hp hset

end Exact

section Kernel

variable {base : ℕ} {accessible : ℕ → Bool} {fits : 8 * (base + 8192) ≤ 2 ^ 64} {m : Memory}
  {virt amount page : ℕ}

theorem readsOwn_kernelTable : (kernelTable base accessible fits).ReadsOwn :=
  fun _ _ _ h ↦ congrArg BitVec.toNat h

theorem same_iff_intact {m' : Memory} (hint : (kernelTable base accessible fits).Intact m) :
    (kernelTable base accessible fits).Same 16 m m' ↔
      (kernelTable base accessible fits).Intact m' := by
  rw [intact_iff]
  refine forall₂_congr fun idx hidx ↦ ?_
  rw [← intact_iff.mp hint idx hidx]
  rfl

/-- **When marking sets exactly the right bits** and leaves them where `VM_AllocatePages` looks for
them: every page of the range has its mark bit set already, or some page of the range sets it; every
mark bit that a page of the range sets is set already, or belongs to the range; and no bit of the
pointers is new.  For the bits alone it is enough that no page disturbs a later one. -/
theorem vmMarkPagesUsed_exact_iff (hint : (kernelTable base accessible fits).Intact m)
    (hbase : kernelVirtualBase ≤ virt) (hend : virt + archPageSize * amount ≤ 2 ^ 64)
    (hpage : page = (virt - kernelVirtualBase) / archPageSize) :
    ((∃ m', (kernelTable base accessible fits).vmMarkPagesUsed m virt amount = .ok m' ∧
        (kernelTable base accessible fits).SetsRange m m' page amount ∧
        (kernelTable base accessible fits).KeepsPlaces m m') ↔
      (kernelTable base accessible fits).MarksRange m page amount ∧
        (kernelTable base accessible fits).KeepsPointers m page amount) ∧
    ((kernelTable base accessible fits).Undisturbed m page amount →
      ((∃ m', (kernelTable base accessible fits).vmMarkPagesUsed m virt amount = .ok m' ∧
          (kernelTable base accessible fits).SetsRange m m' page amount) ↔
        (kernelTable base accessible fits).MarksRange m page amount)) := by
  obtain ⟨-, -, hle⟩ := first_pages hbase hend hpage
  have hcall := (vmFreePages_eq (T := kernelTable base accessible fits) (m := m) hbase hend hpage).1
  have hbits (hun : (kernelTable base accessible fits).Undisturbed m page amount) :=
    (hint.ready hun hle).setsRange_iff readsOwn_kernelTable hint hle
  rw [hcall]
  refine ⟨?_, hbits⟩
  constructor
  · rintro ⟨m', hrun, hset, hplaces⟩
    have hsame := (same_iff_intact hint).mpr
      ((hint.keepsPlaces_iff fun idx ↦ (m' (base + idx)).isLt).mp hplaces)
    have hkeep := (hint.keepsPointers_iff (reads_kernelTable 16) hle hrun).mp hsame
    exact ⟨(hbits (hkeep.undisturbed hle)).mp ⟨m', hrun, hset⟩, hkeep⟩
  · rintro ⟨hmarks, hkeep⟩
    obtain ⟨m', hrun, hset⟩ := (hbits (hkeep.undisturbed hle)).mpr hmarks
    have hsame := (hint.keepsPointers_iff (reads_kernelTable 16) hle hrun).mpr hkeep
    exact ⟨m', hrun, hset, (hint.keepsPlaces_iff fun idx ↦ (m' (base + idx)).isLt).mpr
      ((same_iff_intact hint).mp hsame)⟩

end Kernel

/-- The second and the third page of the word behind the pointers. -/
theorem vmMarkPagesUsed_exact_iff_1025 : ∃ m',
    tableAt2mib.vmMarkPagesUsed marksAt2mib (kernelVirtualBase + 1025 * archPageSize) 2 = .ok m' ∧
      tableAt2mib.SetsRange marksAt2mib m' 1025 2 ∧ tableAt2mib.KeepsPlaces marksAt2mib m' := by
  refine (vmMarkPagesUsed_exact_iff (intact_loadedMarks _) (by decide) (by decide)
    (by decide)).1.mpr ⟨⟨fun q _ _ ↦ rfl, fun p hp1 hp2 ↦ Or.inr ⟨p, hp1, hp2, ?_⟩,
      fun q p hq1 hq2 _ hset ↦ Or.inr ?_⟩, fun q p hq1 hq2 hp hset ↦ ?_⟩
  · exact (setsMark_iff_eq (by omega) (by omega)).mpr rfl
  · obtain rfl := (setsMark_iff_eq (by omega) (by omega)).mp hset
    exact ⟨hq1, hq2⟩
  · obtain rfl := (setsMark_iff_eq (by omega) (by omega)).mp hset
    omega

/-- **Someone else's page is marked**: for page 1056 the bit of page 1024 is set, and its own is
not. -/
theorem vmMarkPagesUsed_marks_other :
    ∃ m', tableAt2mib.vmMarkPagesUsed marksAt2mib (kernelVirtualBase + 1056 * archPageSize) 1 =
        .ok m' ∧
      bit marksAt2mib (tableAt2mib.markPlace marksAt2mib 1024) = false ∧
      bit m' (tableAt2mib.markPlace marksAt2mib 1024) = true ∧
      bit m' (tableAt2mib.markPlace marksAt2mib 1056) = false ∧
      ¬ tableAt2mib.SetsRange marksAt2mib m' 1056 1 := by
  refine ⟨_, rfl, by decide +kernel, by decide +kernel, by decide +kernel, fun h ↦ ?_⟩
  exact absurd ((h 1056 (by decide)).mpr (Or.inr ⟨le_refl _, by decide⟩)) (by decide +kernel)

end ChunkTable

end CubikOS

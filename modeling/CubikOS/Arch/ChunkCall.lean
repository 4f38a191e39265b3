import CubikOS.Arch.ChunkTable

/-!
# Safe calls on the table of chunks

A request for addresses is safe on a bitmap whose pointers lie apart from the words when
`SafeRequest` says so.  With a table of chunks it must leave the pointers alone as well, from its
first page to its last (`ChunkTable.SafeCall`).  Then the table does not matter:
`SafeCall.vmAllocatePages_spec` says of the words of the bitmap what `vmAllocatePages_spec` says.
-/

set_option autoImplicit false

namespace CubikOS

open Loop WordMemory

namespace ChunkTable

variable (T : ChunkTable)

/-- The words of the bitmap, by their index. -/
def marks (m : Memory) : Words := fun w ↦ m (T.base + w)

/-- The pointers are intact before the first page of the range is marked, and after each. -/
def StaysIntact (m : Memory) (page amount : ℕ) : Prop :=
  ∀ k, k ≤ amount → ∀ m', T.orPages k m page = .ok m' → T.Intact m'

/-- What a call needs to be safe: the words allow for it, and the pointers are intact from its start
to its end. -/
structure SafeCall (m : Memory) (amount : ℕ) : Prop where
  /-- The pointers are intact when it starts. -/
  intact : T.Intact m
  /-- The words allow for it. -/
  safe : SafeRequest (T.marks m) amount
  /-- Marking the range that it returns leaves the pointers intact. -/
  stays : ∀ virt m', T.vmAllocatePages m amount = .ok (virt, m') → virt ≠ 0 →
    T.StaysIntact m (pageNumber virt) amount

section Marking

variable {T} {m m' : Memory} {amount page virt : ℕ}

/-- One update of the first chunk, when the pointers are intact. -/
theorem Intact.marks_orAt (hint : T.Intact m) (hpage : page < chunkPages) :
    T.marks (orAt m (T.wordAddr m page) (bitMask (page % 64))) =
      Function.update (T.marks m) (page / 64) (T.marks m (page / 64) ||| bitMask (page % 64)) := by
  have hfits := T.fits
  dsimp only [chunkPages] at hpage
  have haddr : T.wordAddr m page = 8 * (T.base + page / 64) := by
    rw [hint.wordAddr_eq (show page < kernelPages by dsimp only [kernelPages]; omega)]
    omega
  funext w
  rw [haddr, orAt_mul, marks, Function.update_apply, Function.update_apply]
  by_cases hw : w = page / 64
  · rw [if_pos hw, if_pos (by rw [hw])]
    rfl
  · rw [if_neg hw, if_neg fun h ↦ hw (Nat.add_left_cancel h)]
    rfl

theorem StaysIntact.next (h : T.StaysIntact m page (amount + 1))
    (hacc : T.accessible (T.wordAddr m page) = true) :
    T.StaysIntact (orAt m (T.wordAddr m page) (bitMask (page % 64))) (page + 1) amount := by
  intro k hk m' hrun
  refine h (k + 1) (by omega) m' ?_
  rw [orPages, if_pos hacc, hrun]

/-- **Marking pages of the first chunk, as long as it leaves the pointers alone**, does to the words
what `markPages` says. -/
theorem StaysIntact.marks_eq (h : T.StaysIntact m page amount) (hend : page + amount ≤ chunkPages)
    (hrun : T.orPages amount m page = .ok m') :
    T.marks m' = markPages chunkStart amount (T.marks m) page := by
  induction amount generalizing m page with
  | zero =>
    rw [orPages, Except.ok.injEq] at hrun
    rw [markPages, hrun]
  | succ amount ih =>
    have hint : T.Intact m := h 0 (Nat.zero_le _) m rfl
    have hword : chunkStart (T.marks m) (page / 32768 % 2 ^ 16) + page / 64 % 2 ^ 16 =
        page / 64 := by
      rw [chunkStart]
      dsimp only [chunkPages] at hend
      omega
    rw [orPages] at hrun
    split at hrun
    · rename_i hacc
      rw [ih (h.next hacc) (by omega) hrun, hint.marks_orAt (by omega), markPages]
      simp only [hword]
    · simp at hrun

/-- **The scan, as long as the pointers are intact**, is the one over the words, unless one of them
is not there. -/
theorem Intact.scanMarks_eq (hint : T.Intact m) (amount : ℕ) :
    T.scanMarks m amount = (CubikOS.scanMarks chunkStart (T.marks m) amount).mapError Sum.inr ∨
    ∃ e, T.scanMarks m amount = .error e ∧
      e = .inl .pageFault ∧ ∃ w, w < 8192 ∧ T.accessible (8 * (T.base + w)) = false := by
  refine forRange_mapError_or Sum.inr fun idx hi t ↦
    forRange_mapError_or Sum.inr fun sub hj t ↦ ?_
  rw [scanEntry, hint.scan_addr hi hj]
  split
  · rw [readAt_mul]
    exact Or.inl rfl
  · rename_i hacc
    exact Or.inr ⟨_, rfl, rfl, 512 * idx + sub, by omega, Bool.not_eq_true _ ▸ hacc⟩

/-- What the scan finds, the one over the words finds. -/
theorem Intact.scanMarks_of_found (hint : T.Intact m) {v : ℕ}
    (hscan : T.scanMarks m amount = .error (.inr v)) :
    CubikOS.scanMarks chunkStart (T.marks m) amount = .error v := by
  rcases hint.scanMarks_eq amount with heq | ⟨e, he, hfault, -⟩
  · rw [hscan] at heq
    rcases hs : CubikOS.scanMarks chunkStart (T.marks m) amount with v' | st
    · rw [hs, Except.mapError, Except.error.injEq, Sum.inr.injEq] at heq
      rw [heq]
    · rw [hs] at heq
      simp [Except.mapError] at heq
  · rw [hscan, hfault, Except.error.injEq] at he
    simp at he

end Marking

/-! ## A call -/

section Call

variable {T} {m m' : Memory} {amount virt : ℕ}

/-- **A safe call** returns 0, or pages of the first chunk that read as free before and as used
after it; what read as used still does. -/
theorem SafeCall.vmAllocatePages_spec (h : T.SafeCall m amount) (h1 : 1 ≤ amount)
    (hlt : amount < 2 ^ 64) (hcall : T.vmAllocatePages m amount = .ok (virt, m')) :
    (∀ x, Clear (T.marks m') x → Clear (T.marks m) x) ∧ (virt = 0 ∨
      ∃ v, virt = kernelVirtualBase + v * archPageSize ∧ v + amount ≤ chunkPages ∧
        ∀ x, v ≤ x → x < v + amount → Clear (T.marks m) x ∧ ¬ Clear (T.marks m') x) := by
  have hcall' := hcall
  unfold vmAllocatePages at hcall
  split at hcall
  · rw [Except.ok.injEq, Prod.mk.injEq] at hcall
    obtain ⟨rfl, rfl⟩ := hcall
    exact ⟨fun _ ↦ id, Or.inl rfl⟩
  · simp at hcall
  · rename_i hscan
    obtain ⟨v, rfl, hend, hclear⟩ :=
      scanMarks_spec h1 hlt h.safe (h.intact.scanMarks_of_found hscan)
    have hvirt : (v * archPageSize + kernelVirtualBase) % 2 ^ 64 =
        kernelVirtualBase + v * archPageSize := by
      dsimp only [kernelVirtualBase, archPageSize, chunkPages] at *
      omega
    have hpage : pageNumber (kernelVirtualBase + v * archPageSize) = v := by
      dsimp only [pageNumber, kernelVirtualBase, archPageSize, chunkPages] at *
      omega
    dsimp only at hcall
    rw [hvirt] at hcall
    split at hcall
    · simp at hcall
    · rename_i m₁ hmark
      rw [Except.ok.injEq, Prod.mk.injEq] at hcall
      obtain ⟨rfl, rfl⟩ := hcall
      have hne : kernelVirtualBase + v * archPageSize ≠ 0 := by
        dsimp only [kernelVirtualBase]
        omega
      have hstays := h.stays _ _ hcall' hne
      have hrun : T.orPages amount m v = .ok m₁ := hpage ▸ hmark
      rw [hpage] at hstays
      obtain ⟨hmono, hused⟩ := markPages_spec (m := T.marks m) hend
      rw [hstays.marks_eq hend hrun]
      exact ⟨hmono, Or.inr ⟨v, rfl, hend, fun x hx1 hx2 ↦ ⟨hclear x hx1 hx2, hused x hx1 hx2⟩⟩⟩

end Call

/-! ## A table apart -/

/-- A table whose pointers lie apart from the words, all memory being mapped. -/
def tableApart (base : ℕ) (fits : 8 * (base + 8192) ≤ 2 ^ 64) : ChunkTable where
  base := base
  entry _ idx := 8 * (base + 512 * idx)
  accessible _ := true
  fits := fits

section Apart

variable {base : ℕ} {fits : 8 * (base + 8192) ≤ 2 ^ 64} {m : Memory} {amount : ℕ}

theorem intact_tableApart : (tableApart base fits).Intact m := fun _ _ ↦ rfl

/-- On such a table a call is safe when the words allow for it. -/
theorem safeCall_tableApart (h : SafeRequest ((tableApart base fits).marks m) amount) :
    (tableApart base fits).SafeCall m amount :=
  ⟨intact_tableApart, h, fun _ _ _ _ _ _ _ _ ↦ intact_tableApart⟩

theorem scanMarks_tableApart : (tableApart base fits).scanMarks m amount =
    (CubikOS.scanMarks chunkStart ((tableApart base fits).marks m) amount).mapError Sum.inr := by
  rcases intact_tableApart.scanMarks_eq amount with heq | ⟨_, -, -, w, -, hacc⟩
  · exact heq
  · exact absurd hacc (by simp [tableApart])

theorem orPages_tableApart (page : ℕ) :
    ∃ m', (tableApart base fits).orPages amount m page = .ok m' := by
  induction amount generalizing m page with
  | zero => exact ⟨m, rfl⟩
  | succ amount ih => exact ih (page + 1)

/-- Calls always return there, and return what those on the words alone do. -/
theorem vmAllocatePages_tableApart : ∃ m', (tableApart base fits).vmAllocatePages m amount =
    .ok ((CubikOS.vmAllocatePages chunkStart ((tableApart base fits).marks m) amount).1, m') := by
  unfold vmAllocatePages CubikOS.vmAllocatePages
  rw [scanMarks_tableApart]
  rcases CubikOS.scanMarks chunkStart ((tableApart base fits).marks m) amount with v | st
  · obtain ⟨m', hrun⟩ : ∃ m', (tableApart base fits).orPages amount m
        (pageNumber ((v + kernelVirtualBase) % 2 ^ 64)) = .ok m' :=
      orPages_tableApart _
    refine ⟨m', ?_⟩
    simp only [Except.mapError, vmMarkPagesUsed]
    rw [pageNumber] at hrun
    rw [hrun]
  · exact ⟨m, rfl⟩

end Apart

end ChunkTable

end CubikOS

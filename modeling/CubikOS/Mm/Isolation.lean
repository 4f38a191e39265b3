import CubikOS.Arch.ChunkCall
import CubikOS.Mm.Nested

/-!
# No two pages on one frame

`AllocatePages(kernel, amount)` over a whole run of calls, each of which may call itself for the
tables it needs.  What frames and addresses have been handed out is no part of the state, so it is
kept beside it: a `Ledger` says that a source of frames and addresses hands out none twice, and
`Tidy` that the page tables lie on pages that were handed out, no two on one.

* `Fresh log F V F' V'` says that the pages of a log are new and all different, and so are their
  frames; `Fresh.round` puts the log of one page and those of the allocations within together.
* `mapVirtualAddress_fresh` and `allocatePagesWith_fresh` carry it through the two functions, by
  induction on the pages and on how deep the calls nest.
* `Ended` is what holds at the end of a run: every page that was ever handed out is still mapped to
  the frame it was given, and no two of them share one.
* `kernelRun_isolated` is that for the allocators of the kernel, with any table of pointers to the
  chunks of the bitmap, as long as each call is safe (`ChunkTable.SafeCall`).
-/

set_option autoImplicit false

namespace CubikOS

open Buddy

/-! ## Ledgers -/

/-- The number of the frame. -/
def Mapping.frame (x : Mapping) : ℕ := x.phys / archPageSize

/-- What it takes to hand out nothing twice: `Holds r F V` says that in the state `r` the frames
`F` and the pages `V` are spoken for. -/
structure Ledger {ρ : Type} (A : PageSource ρ) where
  /-- What is spoken for. -/
  Holds : ρ → Set ℕ → Set ℕ → Prop
  /-- A block lies in the first 64 GiB, and has only frames that were not spoken for. -/
  pm : ∀ {r r' : ρ} {F V : Set ℕ} {order phys : ℕ}, Holds r F V →
    A.pm r order = .ok (some phys, r') →
    archPageSize ∣ phys ∧ phys + 2 ^ order * archPageSize ≤ 2 ^ 36 ∧
      Disjoint F (pagesOf phys (2 ^ order)) ∧ Holds r' (F ∪ pagesOf phys (2 ^ order)) V
  /-- A range of addresses has only pages that were not spoken for. -/
  vm : ∀ {r r' : ρ} {F V : Set ℕ} {n virt : ℕ}, Holds r F V → n ≠ 0 → n ≤ 1024 →
    A.vm r n = .ok (virt, r') → virt ≠ 0 →
    archPageSize ∣ virt ∧ virt + n * archPageSize ≤ 2 ^ 64 ∧ Disjoint V (pagesOf virt n) ∧
      Holds r' F (V ∪ pagesOf virt n)
  /-- The bookkeeping of the process has no say in it. -/
  charge : ∀ {r : ρ} {F V : Set ℕ} (n : ℕ), Holds r F V → Holds (A.charge r n) F V

/-- The page tables lie on pages that are spoken for, no two on one. -/
structure Tidy {ρ : Type} {A : PageSource ρ} (Λ : Ledger A) (s : Paging ρ) (F V : Set ℕ) :
    Prop where
  /-- The allocators keep what is spoken for. -/
  holds : Λ.Holds s.rest F V
  /-- No table is shared. -/
  distinct : s.DistinctTables
  /-- Every table fills a page that is spoken for. -/
  tables : ∀ i j t, s.pointer i j = some t → archPageSize ∣ t ∧ t / archPageSize ∈ V

/-- What `f` reads off the log is never the same twice, in `S'` and not in `S`. -/
structure New (f : Mapping → ℕ) (log : List Mapping) (S S' : Set ℕ) : Prop where
  /-- Nothing is read off twice. -/
  nodup : (log.map f).Nodup
  /-- Everything is in `S'` and was not in `S`. -/
  mem : ∀ x ∈ log, f x ∈ S' ∧ f x ∉ S

section New

variable {f : Mapping → ℕ} {log log' : List Mapping} {x : Mapping} {S S₁ S₂ P : Set ℕ}

theorem New.nil : New f [] S S₁ := ⟨List.nodup_nil, by simp⟩

/-- One log after another. -/
theorem New.trans (h : New f log S S₁) (h' : New f log' S₁ S₂) (hS : S ⊆ S₁) (hS' : S₁ ⊆ S₂) :
    New f (log ++ log') S S₂ := by
  refine ⟨?_, fun y hy ↦ ?_⟩
  · rw [List.map_append, List.nodup_append']
    refine ⟨h.nodup, h'.nodup, fun b hb hb' ↦ ?_⟩
    obtain ⟨y, hy, rfl⟩ := List.mem_map.mp hb
    obtain ⟨z, hz, heq⟩ := List.mem_map.mp hb'
    exact (h'.mem z hz).2 (heq ▸ (h.mem y hy).1)
  · rcases List.mem_append.mp hy with hy | hy
    · exact ⟨hS' (h.mem y hy).1, (h.mem y hy).2⟩
    · exact ⟨(h'.mem y hy).1, fun hc ↦ (h'.mem y hy).2 (hS hc)⟩

/-- One round of `MapVirtualAddress`: `x` and then those of `P` wait, spoken for already, while a
table is made for `x`; then `x` is mapped, and then the others. -/
theorem New.round (h : New f log S S₁) (h' : New f log' (S₁ \ P) S₂) (hx : f x ∈ S)
    (hxP : f x ∉ P) (hP : P ⊆ S) (hS : S ⊆ S₁) (hS' : S₁ ⊆ S₂) :
    New f (log ++ x :: log') (S \ insert (f x) P) S₂ := by
  have hfirst : New f (log ++ [x]) (S \ insert (f x) P) (S₁ \ P) := by
    refine ⟨?_, fun y hy ↦ ?_⟩
    · rw [List.map_append, List.nodup_append']
      refine ⟨h.nodup, by simp, fun b hb hb' ↦ ?_⟩
      obtain ⟨y, hy, rfl⟩ := List.mem_map.mp hb
      rw [List.map_singleton, List.mem_singleton] at hb'
      exact (h.mem y hy).2 (hb' ▸ hx)
    · rcases List.mem_append.mp hy with hy | hy
      · exact ⟨⟨(h.mem y hy).1, fun hc ↦ (h.mem y hy).2 (hP hc)⟩, fun hc ↦ (h.mem y hy).2 hc.1⟩
      · rw [List.mem_singleton.mp hy]
        exact ⟨⟨hS hx, hxP⟩, fun hc ↦ hc.2 (Set.mem_insert _ _)⟩
  have hboth := hfirst.trans h'
    (fun y hy ↦ ⟨hS hy.1, fun hc ↦ hy.2 (Set.mem_insert_of_mem _ hc)⟩)
    (Set.sdiff_subset.trans hS')
  rwa [List.append_assoc, List.singleton_append] at hboth

end New

/-- The pages of the log are new and all different, and so are its frames. -/
structure Fresh (log : List Mapping) (F V F' V' : Set ℕ) : Prop where
  /-- The pages are new and all different. -/
  page : New Mapping.page log V V'
  /-- The frames are new and all different. -/
  frame : New Mapping.frame log F F'
  /-- Pages and frames are such as the page tables can hold. -/
  bound : ∀ x ∈ log, InKernel x.virt ∧ archPageSize ∣ x.phys ∧ x.phys < 2 ^ 36

/-! ## Mapping -/

theorem pagesOf_succ {virt n : ℕ} :
    pagesOf virt (n + 1) = insert (virt / archPageSize) (pagesOf (virt + archPageSize) n) := by
  have hnext : (virt + archPageSize) / archPageSize = virt / archPageSize + 1 :=
    Nat.add_div_right _ (by decide)
  ext p
  simp only [pagesOf, Set.mem_insert_iff, Set.mem_ofPred_eq, hnext]
  constructor
  · rintro ⟨k, hk, rfl⟩
    rcases k with _ | k
    · exact Or.inl rfl
    · exact Or.inr ⟨k, by omega, by omega⟩
  · rintro (rfl | ⟨k, hk, rfl⟩)
    · exact ⟨0, by omega, rfl⟩
    · exact ⟨k + 1, by omega, by omega⟩

theorem notMem_pagesOf_next (virt n : ℕ) :
    virt / archPageSize ∉ pagesOf (virt + archPageSize) n := by
  rintro ⟨k, -, hk⟩
  rw [Nat.add_div_right _ (by decide : 0 < archPageSize)] at hk
  omega

section Mapping

variable {ρ : Type} {A : PageSource ρ} {Λ : Ledger A}
  {allocatePages : Paging ρ → Except Fault (ℕ × Paging ρ)} {allocLog : Paging ρ → List Mapping}
  {s s' u : Paging ρ} {F V F' V' : Set ℕ} {virt phys flags n : ℕ}

/-- What is spoken for afterwards, and the tables that were made: they lie on pages that were not
spoken for before. -/
structure Grows (s s' : Paging ρ) (F V F' V' : Set ℕ) : Prop where
  /-- No frame is given back. -/
  frames : F ⊆ F'
  /-- No page is given back. -/
  pages : V ⊆ V'
  /-- New tables lie on new pages. -/
  tables : ∀ i j t, s'.pointer i j = some t → s.pointer i j = some t ∨ t / archPageSize ∉ V

theorem Grows.refl (s : Paging ρ) (F V : Set ℕ) : Grows s s F V F V :=
  ⟨Set.Subset.rfl, Set.Subset.rfl, fun _ _ _ h ↦ Or.inl h⟩

theorem Grows.trans {F₁ V₁ : Set ℕ} (h : Grows s u F V F₁ V₁) (h' : Grows u s' F₁ V₁ F' V') :
    Grows s s' F V F' V' := by
  refine ⟨h.frames.trans h'.frames, h.pages.trans h'.pages, fun i j t ht ↦ ?_⟩
  rcases h'.tables i j t ht with ht | ht
  · exact h.tables i j t ht
  · exact Or.inr fun hc ↦ ht (h.pages hc)

/-- What `AllocatePages(kernel, 1)` does when it comes up with a page: the page is a new one, and
no table lies on it. -/
structure SuppliesFresh (Λ : Ledger A) (s u : Paging ρ) (log : List Mapping) (t : ℕ)
    (F V F' V' : Set ℕ) : Prop where
  /-- The state stays tidy. -/
  tidy : Tidy Λ u F' V'
  /-- Nothing is given back. -/
  grows : Grows s u F V F' V'
  /-- Everything mapped on the way is new. -/
  fresh : Fresh log F V F' V'
  /-- The page is new. -/
  page : archPageSize ∣ t ∧ t / archPageSize ∈ V' ∧ t / archPageSize ∉ V
  /-- It is not the page of a table. -/
  free : ∀ i j t', u.pointer i j = some t' → t' / archPageSize ≠ t / archPageSize

/-- **Making a table for a page** keeps the state tidy. -/
theorem SuppliesFresh.installTable {log : List Mapping} {t : ℕ}
    (h : SuppliesFresh Λ (s.openDir virt flags) u log t F V F' V') :
    Tidy Λ (u.installTable virt t) F' V' ∧ Grows s (u.installTable virt t) F V F' V' := by
  have hpointer : ∀ i j t', (u.installTable virt t).pointer i j = some t' →
      (i = pdptGetIndex virt ∧ j = pdirGetIndex virt) ∧ t' = t ∨ u.pointer i j = some t' := by
    intro i j t' ht'
    rw [Paging.installTable, setPointer_pointer] at ht'
    split at ht'
    · rename_i hij
      exact Or.inl ⟨hij, (Option.some.inj ht').symm⟩
    · exact Or.inr ht'
  refine ⟨⟨h.tidy.holds, fun i j i' j' t' h1 h2 ↦ ?_, fun i j t' ht' ↦ ?_⟩,
    ⟨h.grows.frames, h.grows.pages, fun i j t' ht' ↦ ?_⟩⟩
  · rcases hpointer i j t' h1 with ⟨⟨rfl, rfl⟩, rfl⟩ | h1' <;>
      rcases hpointer i' j' _ h2 with ⟨⟨rfl, rfl⟩, heq⟩ | h2'
    · exact ⟨rfl, rfl⟩
    · exact absurd rfl (h.free _ _ _ h2')
    · exact absurd (congrArg (· / archPageSize) heq) (h.free _ _ _ h1')
    · exact h.tidy.distinct _ _ _ _ _ h1' h2'
  · rcases hpointer i j t' ht' with ⟨-, rfl⟩ | ht'
    · exact ⟨h.page.1, h.page.2.1⟩
    · exact h.tidy.tables i j t' ht'
  · rcases hpointer i j t' ht' with ⟨-, rfl⟩ | ht'
    · exact Or.inr h.page.2.2
    · exact h.grows.tables i j t' ht'

/-- Finding the entry for a page. -/
theorem findEntry_fresh {page : EntryRef}
    (hagain : ∀ w t w' F V, Tidy Λ w F V → allocatePages w = .ok (t, w') →
      ∃ F' V', SuppliesFresh Λ w w' (allocLog w) t F V F' V')
    (hs : Tidy Λ s F V) (hv : InKernel virt)
    (hfind : findEntry allocatePages s virt flags = .ok (page, u)) :
    ∃ F' V', Tidy Λ u F' V' ∧ Grows s u F V F' V' ∧
      Fresh (findLog allocLog s virt flags) F V F' V' := by
  rcases findEntry_cases hv hfind with ⟨hget, rfl⟩ | ⟨hget, hdir, t, w, hcall, -, -, rfl⟩
  · refine ⟨F, V, hs, Grows.refl u F V, ?_⟩
    rw [findLog, hget]
    exact ⟨New.nil, New.nil, by simp⟩
  · have hopen : Tidy Λ (s.openDir virt flags) F V := ⟨hs.holds, hs.distinct, hs.tables⟩
    obtain ⟨F', V', h⟩ := hagain _ t w F V hopen hcall
    obtain ⟨htidy, hgrows⟩ := h.installTable
    refine ⟨F', V', htidy, hgrows, ?_⟩
    rw [findLog, hget]
    simp only [hdir, Bool.not_false, if_true]
    exact h.fresh

/-- **Mapping pages to frames, all of them spoken for**: whatever is mapped on the way is new. -/
theorem mapVirtualAddress_fresh
    (hagain : ∀ w t w' F V, Tidy Λ w F V → allocatePages w = .ok (t, w') →
      ∃ F' V', SuppliesFresh Λ w w' (allocLog w) t F V F' V')
    (hs : Tidy Λ s F V) (hV : pagesOf virt n ⊆ V) (hF : pagesOf phys n ⊆ F)
    (hv : n ≠ 0 → InKernel virt) (hal : archPageSize ∣ phys)
    (hphys : phys + n * archPageSize ≤ 2 ^ 36)
    (hrun : mapVirtualAddress allocatePages n s phys virt flags = .ok s') :
    ∃ F' V', Tidy Λ s' F' V' ∧ Grows s s' F V F' V' ∧
      Fresh (mapLog allocatePages allocLog n s phys virt flags) (F \ pagesOf phys n)
        (V \ pagesOf virt n) F' V' := by
  induction n generalizing s phys virt F V with
  | zero =>
    rw [mapVirtualAddress, Except.ok.injEq] at hrun
    subst hrun
    exact ⟨F, V, hs, Grows.refl s F V, New.nil, New.nil, by simp [mapLog]⟩
  | succ n ih =>
    have hk := hv (Nat.succ_ne_zero n)
    obtain ⟨page, u, hfind, hrest⟩ := mapVirtualAddress_succ hrun
    obtain ⟨F₁, V₁, hs₁, hgrows, hfresh⟩ := findEntry_fresh hagain hs hk hfind
    have hlog : mapLog allocatePages allocLog (n + 1) s phys virt flags =
        findLog allocLog s virt flags ++ ⟨virt, phys, flags⟩ ::
          mapLog allocatePages allocLog n (u.setEntry page (mapEntry phys flags))
            ((phys + archPageSize) % 2 ^ 64) ((virt + archPageSize) % 2 ^ 64) flags := by
      rw [mapLog, hfind]
    have hnext := fun hn ↦ next_inKernel hk hn hrest
    have hnext' : n ≠ 0 → InKernel ((virt + archPageSize) % 2 ^ 64) := fun hn ↦ by
      rw [(hnext hn).1]; exact (hnext hn).2
    have hvirt : pagesOf ((virt + archPageSize) % 2 ^ 64) n = pagesOf (virt + archPageSize) n := by
      rcases Nat.eq_zero_or_pos n with rfl | hn
      · simp [pagesOf]
      · rw [(hnext hn.ne').1]
    have hphys' : (phys + archPageSize) % 2 ^ 64 = phys + archPageSize := by
      rw [Nat.succ_mul] at hphys
      dsimp only [archPageSize] at *
      omega
    rw [pagesOf_succ, Set.insert_subset_iff] at hV hF
    obtain ⟨F', V', hs', hgrows', hfresh'⟩ := ih (F := F₁) (V := V₁)
      (s := u.setEntry page (mapEntry phys flags)) ⟨hs₁.holds, hs₁.distinct, hs₁.tables⟩
      (by rw [hvirt]; exact hV.2.trans hgrows.pages)
      (by rw [hphys']; exact hF.2.trans hgrows.frames)
      hnext' (by rw [hphys']; exact Nat.dvd_add hal (dvd_refl _))
      (by rw [hphys']; rw [Nat.succ_mul] at hphys; omega) hrest
    rw [hvirt, hphys'] at hfresh'
    refine ⟨F', V', hs', hgrows.trans ⟨hgrows'.frames, hgrows'.pages, hgrows'.tables⟩, ?_⟩
    rw [hlog, pagesOf_succ, pagesOf_succ, hphys']
    refine ⟨?_, ?_, fun x hx ↦ ?_⟩
    · exact hfresh.page.round (x := ⟨virt, phys, flags⟩) hfresh'.page hV.1
        (notMem_pagesOf_next virt n) hV.2 hgrows.pages hgrows'.pages
    · exact hfresh.frame.round (x := ⟨virt, phys, flags⟩) hfresh'.frame hF.1
        (notMem_pagesOf_next phys n) hF.2 hgrows.frames hgrows'.frames
    · rcases List.mem_append.mp hx with hx | hx
      · exact hfresh.bound x hx
      rcases List.mem_cons.mp hx with rfl | hx
      · refine ⟨hk, hal, ?_⟩
        rw [Nat.succ_mul] at hphys
        dsimp only [archPageSize] at *
        omega
      · exact hfresh'.bound x hx

end Mapping

section Calls

variable {ρ : Type} {A : PageSource ρ} {Λ : Ledger A} {s s' : Paging ρ} {F V : Set ℕ} {virt : ℕ}

/-- **A call of `AllocatePages` for at most 1024 pages** hands out only what is new, for its caller
and for the tables it has made. -/
theorem allocatePagesWith_fresh {fuel amount : ℕ} (h1 : 1 ≤ amount) (hle : amount ≤ 1024)
    (hs : Tidy Λ s F V) (hrun : allocatePagesWith A fuel s amount = .ok (virt, s')) :
    ∃ F' V', SuppliesFresh Λ s s' (allocLog A fuel s amount) virt F V F' V' := by
  induction fuel generalizing s s' virt amount F V with
  | zero => simp [allocatePagesWith] at hrun
  | succ fuel ih =>
    obtain ⟨fuel', phys, r, r', u, heq, hpm, hvm, hmap, rfl, hlog⟩ := allocatePagesWith_ok hrun
    obtain rfl : fuel = fuel' := Nat.succ_injective heq
    obtain ⟨hle', hpow⟩ := pageSizeAlign_small h1 hle
    have hne : pageSizeAlign amount ≠ 0 := by omega
    have hmax : pageSizeAlign amount ≤ 1024 := by
      rw [hpow]
      exact Nat.pow_le_pow_right (by decide) (A.pm_order _ _ _ _ hpm)
    have hkernel := inKernel_of_map hvm hmap hne
    obtain ⟨hal, hphys, hframes, hholds⟩ := Λ.pm hs.holds hpm
    rw [← hpow] at hphys hframes hholds
    obtain ⟨hval, hvirt, hpages, hholds⟩ := Λ.vm hholds hne hmax hvm
      (fun h0 ↦ by rw [h0] at hkernel; exact absurd hkernel.1 (by decide))
    generalize pageSizeAlign amount = n at *
    -- with the frames and the pages spoken for, the mapping begins
    have hs₁ : Tidy Λ { s with rest := r' } (F ∪ pagesOf phys n) (V ∪ pagesOf virt n) :=
      ⟨hholds, hs.distinct, fun i j t ht ↦ (hs.tables i j t ht).imp_right Or.inl⟩
    obtain ⟨F', V', hs', hgrows, hfresh⟩ := mapVirtualAddress_fresh
      (fun w t w' F V hw hcall ↦ ih (le_refl 1) (by decide) hw hcall) hs₁ Set.subset_union_right
      Set.subset_union_right (fun _ ↦ hkernel) hal hphys hmap
    rw [Set.union_sdiff_cancel_right hframes.le_bot, Set.union_sdiff_cancel_right hpages.le_bot,
      ← hlog] at hfresh
    have hpage : virt / archPageSize ∈ pagesOf virt n := ⟨0, by omega, rfl⟩
    have hnew : virt / archPageSize ∉ V := fun hc ↦ Set.disjoint_left.mp hpages hc hpage
    refine ⟨F', V', ⟨Λ.charge n hs'.holds, hs'.distinct, hs'.tables⟩,
      ⟨Set.subset_union_left.trans hgrows.frames, Set.subset_union_left.trans hgrows.pages,
        fun i j t ht ↦ (hgrows.tables i j t ht).imp_right fun h hc ↦ h (Or.inl hc)⟩,
      hfresh, ⟨hval, hgrows.pages (Or.inr hpage), hnew⟩, fun i j t ht heq ↦ ?_⟩
    rcases hgrows.tables i j t ht with hold | hout
    · exact hnew (heq ▸ (hs.tables i j t hold).2)
    · exact hout (heq ▸ Or.inr hpage)

/-- Every page of the range that is asked for is mapped. -/
theorem exists_mem_mapLog {allocatePages : Paging ρ → Except Fault (ℕ × Paging ρ)}
    {allocLog : Paging ρ → List Mapping} {n phys flags : ℕ} (hv : n ≠ 0 → InKernel virt)
    (hrun : mapVirtualAddress allocatePages n s phys virt flags = .ok s') :
    ∀ p ∈ pagesOf virt n, ∃ x ∈ mapLog allocatePages allocLog n s phys virt flags, x.page = p := by
  induction n generalizing s phys virt with
  | zero =>
    rintro p ⟨k, hk, -⟩
    exact absurd hk (Nat.not_lt_zero k)
  | succ n ih =>
    have hk := hv (Nat.succ_ne_zero n)
    obtain ⟨page, u, hfind, hrest⟩ := mapVirtualAddress_succ hrun
    have hnext := fun hn ↦ next_inKernel hk hn hrest
    intro p hp
    rw [mapLog, hfind]
    rw [pagesOf_succ] at hp
    rcases hp with rfl | hp
    · exact ⟨⟨virt, phys, flags⟩, List.mem_append_right _ List.mem_cons_self, rfl⟩
    · have hn : n ≠ 0 := by
        rintro rfl
        obtain ⟨k, hk, -⟩ := hp
        exact absurd hk (Nat.not_lt_zero k)
      have hin := hnext hn
      obtain ⟨x, hx, hxp⟩ := ih (fun _ ↦ by rw [hin.1]; exact hin.2) hrest p (by rwa [hin.1])
      exact ⟨x, List.mem_append_right _ (List.mem_cons_of_mem _ hx), hxp⟩

theorem exists_mem_allocLog {fuel amount : ℕ} (h1 : 1 ≤ amount) (hle : amount ≤ 1024)
    (hrun : allocatePagesWith A fuel s amount = .ok (virt, s')) :
    ∀ p ∈ pagesOf virt amount, ∃ x ∈ allocLog A fuel s amount, x.page = p := by
  obtain ⟨fuel', phys, r, r', u, rfl, -, hvm, hmap, -, hlog⟩ := allocatePagesWith_ok hrun
  obtain ⟨hle', -⟩ := pageSizeAlign_small h1 hle
  rintro p ⟨k, hk, rfl⟩
  rw [hlog]
  exact exists_mem_mapLog (fun hn ↦ inKernel_of_map hvm hmap hn) hmap _ ⟨k, by omega, rfl⟩

/-! ## Translating -/

/-- For a frame of the first 64 GiB it does not matter in how many bits the product is taken. -/
theorem convertVirtToPhysNarrow_of_entry {a : ℕ} {e : Entry} (ha : InKernel a)
    (he : s.entry a = some e) (hlt : e.addr * archPageSize < 2 ^ 36) :
    convertVirtToPhysNarrow s a = convertVirtToPhys s a := by
  rw [Paging.entry] at he
  rcases hr : vmGetPage s a with _ | r
  · simp [hr] at he
  · rw [hr, Option.map_some, Option.some.injEq] at he
    obtain ⟨h1, h2⟩ := (vmGetPage_eq_some ha).mp hr
    simp only [convertVirtToPhysNarrow, convertVirtToPhys, if_pos ha.pml4GetIndex, h1, ← h2, he,
      Nat.mod_eq_of_lt hlt]

/-! ## Runs -/

/-- A call of `AllocatePages(kernel, amount)` that has returned. -/
structure PagesCall where
  /-- The address returned. -/
  virt : ℕ
  /-- The number of pages asked for. -/
  amount : ℕ

/-- The pages it was asked for. -/
def PagesCall.pages (c : PagesCall) : Set ℕ := pagesOf c.virt c.amount

/-- The states a kernel gets into by calling `AllocatePages(kernel, amount)` for up to 1024 pages
at a time, with the calls and the pages mapped so far, those for tables among them. -/
inductive PagesRun (A : PageSource ρ) (start : Paging ρ) :
    Paging ρ → List PagesCall → List Mapping → Prop
  | start : PagesRun A start start [] []
  | call {s s' : Paging ρ} {calls : List PagesCall} {log : List Mapping} {virt : ℕ}
    (fuel amount : ℕ) :
    PagesRun A start s calls log → 1 ≤ amount → amount ≤ 1024 →
    allocatePagesWith A fuel s amount = .ok (virt, s') →
    PagesRun A start s' (⟨virt, amount⟩ :: calls) (log ++ allocLog A fuel s amount)

variable {start : Paging ρ} {calls : List PagesCall} {log : List Mapping}

/-- What holds at the end of a run. -/
structure Ended (Λ : Ledger A) (start s : Paging ρ) (F V : Set ℕ) (calls : List PagesCall)
    (log : List Mapping) (F' V' : Set ℕ) : Prop where
  /-- The log has been written. -/
  writes : Writes start log s
  /-- The state is tidy. -/
  tidy : Tidy Λ s F' V'
  /-- Nothing was given back. -/
  grows : F ⊆ F' ∧ V ⊆ V'
  /-- Everything mapped was new. -/
  fresh : Fresh log F V F' V'
  /-- Every page asked for was mapped. -/
  mapped : ∀ c ∈ calls, ∀ p ∈ c.pages, ∃ x ∈ log, x.page = p
  /-- No page was returned twice. -/
  apart : calls.Pairwise fun c d ↦ Disjoint c.pages d.pages

theorem PagesRun.ended (hstart : Tidy Λ start F V) (hrun : PagesRun A start s calls log) :
    ∃ F' V', Ended Λ start s F V calls log F' V' := by
  induction hrun with
  | start =>
    exact ⟨F, V, Writes.nil, hstart, ⟨Set.Subset.rfl, Set.Subset.rfl⟩,
      ⟨New.nil, New.nil, by simp⟩, by simp, .nil⟩
  | call fuel amount hrun h1 hle hcall ih =>
    obtain ⟨F₁, V₁, hE⟩ := ih
    obtain ⟨F', V', h⟩ := allocatePagesWith_fresh h1 hle hE.tidy hcall
    have hpages := exists_mem_allocLog h1 hle hcall
    refine ⟨F', V', hE.writes.trans (allocatePagesWith_spec hcall).1, h.tidy,
      ⟨hE.grows.1.trans h.grows.frames, hE.grows.2.trans h.grows.pages⟩,
      ⟨hE.fresh.page.trans h.fresh.page hE.grows.2 h.grows.pages,
        hE.fresh.frame.trans h.fresh.frame hE.grows.1 h.grows.frames,
        fun x hx ↦ (List.mem_append.mp hx).elim (hE.fresh.bound x) (h.fresh.bound x)⟩,
      fun c hc p hp ↦ ?_, List.pairwise_cons.mpr ⟨fun c hc ↦ ?_, hE.apart⟩⟩
    · rcases List.mem_cons.mp hc with rfl | hc
      · exact (hpages p hp).imp fun x hx ↦ ⟨List.mem_append_right _ hx.1, hx.2⟩
      · exact (hE.mapped c hc p hp).imp fun x hx ↦ ⟨List.mem_append_left _ hx.1, hx.2⟩
    · -- what was returned before was spoken for when the call was made
      refine Set.disjoint_left.mpr fun p hp hp' ↦ ?_
      obtain ⟨x, hx, rfl⟩ := hpages p hp
      obtain ⟨y, hy, hyp⟩ := hE.mapped c hc _ hp'
      exact (h.fresh.page.mem x hx).2 (hyp ▸ (hE.fresh.page.mem y hy).1)

/-- In a log without repetitions every mapping is the last of its page. -/
theorem lastOn_of_nodup {log : List Mapping} {x : Mapping} (h : (log.map Mapping.page).Nodup)
    (hx : x ∈ log) : lastOn x.page log = some x := by
  rcases hlast : lastOn x.page log with _ | y
  · exact absurd rfl (lastOn_eq_none.mp hlast x hx)
  · obtain ⟨hy, hpage⟩ := mem_of_lastOn hlast
    rw [List.inj_on_of_nodup_map h hy hx hpage]

theorem Ended.translate {F' V' : Set ℕ} (hE : Ended Λ start s F V calls log F' V') {x : Mapping}
    (hx : x ∈ log) {a : ℕ} (ha : InKernel a) (hpage : a / archPageSize = x.page) :
    isPagePresent s a = some true ∧ convertVirtToPhys s a = x.phys + a % archPageSize ∧
      convertVirtToPhysNarrow s a = convertVirtToPhys s a := by
  have hlast := lastOn_of_nodup hE.fresh.page.nodup hx
  rw [← hpage] at hlast
  obtain ⟨-, hal, hlt⟩ := hE.fresh.bound x hx
  have hentry := hE.writes.entry_of_last hE.tidy.distinct ha hlast
  obtain ⟨hpresent, hconvert⟩ := translate_of_mapEntry ha hentry hal
    (hlt.trans (by decide))
  refine ⟨hpresent, hconvert, convertVirtToPhysNarrow_of_entry ha hentry ?_⟩
  obtain ⟨q, hq⟩ := hal
  dsimp only [archPageSize] at hq
  dsimp only [Mapping.entry, mapEntry, archPageSize]
  omega

/-- Addresses on pages that were mapped are not translated alike. -/
theorem Ended.inj {F' V' : Set ℕ} (hE : Ended Λ start s F V calls log F' V') {x y : Mapping}
    (hx : x ∈ log) (hy : y ∈ log) {a b : ℕ} (ha : InKernel a) (hb : InKernel b)
    (hax : a / archPageSize = x.page) (hby : b / archPageSize = y.page)
    (heq : convertVirtToPhys s a = convertVirtToPhys s b) : a = b := by
  rw [(hE.translate hx ha hax).2.1, (hE.translate hy hb hby).2.1] at heq
  obtain ⟨c, hc⟩ := (hE.fresh.bound x hx).2.1
  obtain ⟨d, hd⟩ := (hE.fresh.bound y hy).2.1
  have hframe : x.frame = y.frame := by
    rw [Mapping.frame, Mapping.frame, hc, hd]
    rw [hc, hd] at heq
    dsimp only [archPageSize] at *
    omega
  obtain rfl := List.inj_on_of_nodup_map hE.fresh.frame.nodup hx hy hframe
  dsimp only [archPageSize] at *
  omega

end Calls

/-! ## The allocators of the kernel -/

section Table

variable (T : ChunkTable)

/-- `VM_AllocatePages` of the kernel, as a source of addresses, with the table of pointers that it
reaches the words through.  The state has all the memory the bitmap lies in. -/
def tableVm (r : Allocators) (n : ℕ) : Except Fault (ℕ × Allocators) :=
  match T.vmAllocatePages r.marks n with
  | .error f => .error f
  | .ok (virt, m) => .ok (virt, { r with marks := m })

/-- `VM_AllocatePages` of the kernel where the request is safe, that is, where it answers with pages
that are free and leaves the pointers alone. -/
noncomputable def safeVm (r : Allocators) (n : ℕ) : Except Fault (ℕ × Allocators) :=
  open Classical in if T.SafeCall r.marks n then tableVm T r n else .error .panic

variable {T} {r r' : Allocators} {n virt : ℕ}

theorem tableVm_eq_ok (h : tableVm T r n = .ok (virt, r')) :
    ∃ m, T.vmAllocatePages r.marks n = .ok (virt, m) ∧ r' = { r with marks := m } := by
  unfold tableVm at h
  split at h
  · simp at h
  · rename_i virt' m hcall
    rw [Except.ok.injEq, Prod.mk.injEq] at h
    obtain ⟨rfl, rfl⟩ := h
    exact ⟨m, hcall, rfl⟩

theorem tableVm_kernel (r : Allocators) (n virt : ℕ) (r' : Allocators)
    (h : tableVm T r n = .ok (virt, r')) :
    virt = 0 ∨ kernelVirtualBase ≤ virt ∧ virt < 2 ^ 64 := by
  obtain ⟨m, hcall, -⟩ := tableVm_eq_ok h
  exact ChunkTable.vmAllocatePages_kernel hcall

theorem safeVm_eq_ok {x : ℕ × Allocators} (h : safeVm T r n = .ok x) :
    T.SafeCall r.marks n ∧ tableVm T r n = .ok x := by
  rw [safeVm] at h
  split at h
  · rename_i hsafe
    exact ⟨hsafe, h⟩
  · simp at h

variable (T)

/-- The allocators of the kernel, with such a table. -/
def tableSource : PageSource Allocators where
  pm := kernelPm
  vm := tableVm T
  charge := kernelCharge
  pm_order := kernelPm_order
  vm_kernel := tableVm_kernel

/-- The same with the runs cut off at a request for addresses that is not safe. -/
noncomputable def safeSource : PageSource Allocators where
  pm := kernelPm
  vm := safeVm T
  charge := kernelCharge
  pm_order := kernelPm_order
  vm_kernel r n virt r' h := tableVm_kernel r n virt r' (safeVm_eq_ok h).2

end Table

section Mono

variable {ρ : Type} {again again' : Paging ρ → Except Fault (ℕ × Paging ρ)}

theorem findEntry_mono (h : ∀ u x, again u = .ok x → again' u = .ok x) {s : Paging ρ}
    {virt flags : ℕ} {y : EntryRef × Paging ρ} (hfind : findEntry again s virt flags = .ok y) :
    findEntry again' s virt flags = .ok y := by
  rw [findEntry] at hfind ⊢
  dsimp only at hfind ⊢
  split at hfind
  · exact hfind
  split at hfind
  · rename_i habsent
    rw [if_pos habsent]
    split at hfind
    · simp at hfind
    · rename_i hcall
      rw [h _ _ hcall]
      exact hfind
  · rename_i hpresent
    rw [if_neg hpresent]
    exact hfind

/-- The more calls within return, the more calls return. -/
theorem mapVirtualAddress_mono (h : ∀ u x, again u = .ok x → again' u = .ok x) {n : ℕ}
    {s s' : Paging ρ} {phys virt flags : ℕ}
    (hrun : mapVirtualAddress again n s phys virt flags = .ok s') :
    mapVirtualAddress again' n s phys virt flags = .ok s' := by
  induction n generalizing s phys virt with
  | zero => exact hrun
  | succ n ih =>
    rw [mapVirtualAddress] at hrun ⊢
    split at hrun
    · rename_i hindex
      rw [if_pos hindex]
      split at hrun
      · simp at hrun
      · rename_i page u hfind
        rw [findEntry_mono h hfind]
        exact ih hrun
    · simp at hrun

end Mono

/-- A call that is not cut off is a call of the kernel. -/
theorem allocatePagesWith_safeSource {T : ChunkTable} {fuel amount virt : ℕ} {s s' : Machine}
    (h : allocatePagesWith (safeSource T) fuel s amount = .ok (virt, s')) :
    allocatePagesWith (tableSource T) fuel s amount = .ok (virt, s') := by
  induction fuel generalizing s s' virt amount with
  | zero => simp [allocatePagesWith] at h
  | succ fuel ih =>
    obtain ⟨fuel', phys, r, r', u, heq, hpm, hvm, hmap, rfl, -⟩ := allocatePagesWith_ok h
    obtain rfl : fuel = fuel' := Nat.succ_injective heq
    have hpm' : (tableSource T).pm s.rest (pageSizeOrder (pageSizeAlign amount)) =
        .ok (some phys, r) := hpm
    have hvm' : (tableSource T).vm r (pageSizeAlign amount) = .ok (virt, r') := by
      rw [show (safeSource T).vm = safeVm T from rfl] at hvm
      simp only [tableSource]
      exact (safeVm_eq_ok hvm).2
    have hagain : ∀ w (x : ℕ × Machine), allocatePagesWith (safeSource T) fuel w 1 = .ok x →
        allocatePagesWith (tableSource T) fuel w 1 = .ok x := fun w x hx ↦ ih hx
    have hmap' := mapVirtualAddress_mono hagain hmap
    rw [allocatePagesWith, allocateRoundedWith, hpm']
    exact mapFramesWith_of_ok (s := { s with rest := r }) hvm' hmap'

/-- The page is marked as used, if it is one of the topmost 2 GiB. -/
def MarkedUsed (m : Words) (p : ℕ) : Prop :=
  kernelVirtualBase / archPageSize ≤ p → ¬ Clear m (p - kernelVirtualBase / archPageSize)

/-- What is spoken for by the state of the kernel's allocators: frames that no free block has, and
pages that are marked. -/
structure SpokenFor (T : ChunkTable) (r : Allocators) (F V : Set ℕ) : Prop where
  /-- The free lists are sound, no free block has a frame that is spoken for, and all of them lie in
  the first 64 GiB. -/
  frames : ∃ L taken, Sound r.pm L taken ∧ (∀ f ∈ F, f * archPageSize ∈ taken) ∧
    ∀ q ∈ Listed L, (r.pm.block q).span archPageSize ⊆ Set.Iio (2 ^ 36)
  /-- The pages spoken for are marked. -/
  pages : ∀ p ∈ V, MarkedUsed (T.marks r.marks) p

section SpokenFor

variable {T : ChunkTable} {r r' : Allocators} {F V : Set ℕ}

theorem SpokenFor.pm {order phys : ℕ} (h : SpokenFor T r F V)
    (hrun : kernelPm r order = .ok (some phys, r')) :
    archPageSize ∣ phys ∧ phys + 2 ^ order * archPageSize ≤ 2 ^ 36 ∧
      Disjoint F (pagesOf phys (2 ^ order)) ∧ SpokenFor T r' (F ∪ pagesOf phys (2 ^ order)) V := by
  obtain ⟨L, taken, hS, hF, hlt⟩ := h.frames
  rw [kernelPm] at hrun
  split at hrun
  · simp at hrun
  · simp at hrun
  rename_i p pm hcall
  simp only [Except.ok.injEq, Prod.mk.injEq, Option.some.injEq] at hrun
  obtain ⟨rfl, rfl⟩ := hrun
  obtain ⟨m, rest, L', hle, -, -, hT, hS'⟩ := pmAllocatePages_some hS hcall
  have hblock : pm.block p = ⟨(pm.page p).addr, (r.pm.page p).order - (m - order)⟩ := by
    rw [hT.block_self, hT.page_self]
  have horder := (hS.order m p (by simp [hT.pop])).1
  have hal : archPageSize ∣ (pm.page p).addr := by
    have hfree := (hS.blocks.block p hT.listed).aligned
    rw [hT.page_self]
    exact (Nat.dvd_mul_right _ _).trans hfree
  -- the frames asked for are a part of the block that is returned
  have hspan : ∀ f ∈ pagesOf (pm.page p).addr (2 ^ order),
      f * archPageSize ∈ (pm.block p).span archPageSize := by
    rintro f ⟨k, hk, rfl⟩
    have hpow : 2 ^ order ≤ 2 ^ ((r.pm.page p).order - (m - order)) :=
      Nat.pow_le_pow_right (by decide) (by omega)
    obtain ⟨c, hc⟩ := hal
    rw [hblock, Block.mem_span]
    dsimp only [archPageSize] at *
    omega
  have hsub := hT.span_self
  refine ⟨hal, ?_, Set.disjoint_left.mpr fun f hf hf' ↦ ?_, ⟨⟨L', _, hS', fun f hf ↦ ?_,
    fun q hq ↦ ?_⟩, h.pages⟩⟩
  · have hlast := hlt p hT.listed (hsub (hspan _ ⟨2 ^ order - 1,
      Nat.sub_lt (Nat.two_pow_pos _) Nat.one_pos, rfl⟩))
    have hpos := Nat.two_pow_pos order
    obtain ⟨c, hc⟩ := hal
    rw [Set.mem_Iio] at hlast
    dsimp only [archPageSize] at *
    omega
  · exact Set.disjoint_left.mp (hS.blocks.taken p hT.listed) (hsub (hspan f hf')) (hF f hf)
  · exact hf.imp (hF f) (hspan f)
  · obtain ⟨q', hq', hsub'⟩ := hT.span_listed hS hq
    exact hsub'.trans (hlt q' hq')

theorem SpokenFor.vm {n virt : ℕ} (h : SpokenFor T r F V) (hn : n ≠ 0) (hle : n ≤ 1024)
    (hrun : safeVm T r n = .ok (virt, r')) (hvirt : virt ≠ 0) :
    archPageSize ∣ virt ∧ virt + n * archPageSize ≤ 2 ^ 64 ∧ Disjoint V (pagesOf virt n) ∧
      SpokenFor T r' F (V ∪ pagesOf virt n) := by
  obtain ⟨hsafe, hrun⟩ := safeVm_eq_ok hrun
  obtain ⟨m, hcall, rfl⟩ := tableVm_eq_ok hrun
  obtain ⟨hmono, hres⟩ := hsafe.vmAllocatePages_spec (Nat.pos_of_ne_zero hn) (by omega) hcall
  obtain ⟨v, rfl, hend, hclear⟩ := hres.resolve_left hvirt
  have hpage : ∀ p ∈ pagesOf (kernelVirtualBase + v * archPageSize) n,
      kernelVirtualBase / archPageSize ≤ p ∧ v ≤ p - kernelVirtualBase / archPageSize ∧
        p - kernelVirtualBase / archPageSize < v + n := by
    rintro p ⟨k, hk, rfl⟩
    dsimp only [kernelVirtualBase, archPageSize]
    omega
  refine ⟨(chunk_range hend).1, (chunk_range hend).2.2.1, Set.disjoint_left.mpr fun p hp hp' ↦ ?_,
    h.frames, fun p hp hbase hc ↦ ?_⟩
  · obtain ⟨h1, h2, h3⟩ := hpage p hp'
    exact h.pages p hp h1 (hclear _ h2 h3).1
  · rcases hp with hp | hp
    · exact h.pages p hp hbase (hmono _ hc)
    · obtain ⟨-, h2, h3⟩ := hpage p hp
      exact (hclear _ h2 h3).2 hc

end SpokenFor

/-- The allocators of the kernel hand out nothing twice, where requests for addresses are safe. -/
noncomputable def kernelLedger (T : ChunkTable) : Ledger (safeSource T) where
  Holds := SpokenFor T
  pm h hrun := h.pm hrun
  vm h hn hle hrun hvirt := h.vm hn hle hrun hvirt
  charge _ h := ⟨h.frames, h.pages⟩

/-- **No two pages of the kernel on one frame.**  The kernel's page tables lie on pages that are
marked as used, no two on one, the free lists are sound, and all free blocks lie in the first
64 GiB.  Then at the end of every run of calls of `AllocatePages`, each for up to 1024 pages, in
which every request for addresses was safe, no page was returned twice; every page that was returned
has been mapped; every page that was mapped, for a caller or for a table, is still mapped to the
frame it was given, neither having been spoken for at the start; and no two addresses on such pages
are translated alike. -/
theorem kernelRun_isolated (T : ChunkTable) {start s : Machine} {F V : Set ℕ}
    {calls : List PagesCall} {log : List Mapping} (hstart : Tidy (kernelLedger T) start F V)
    (hrun : PagesRun (safeSource T) start s calls log) :
    (calls.Pairwise fun c d ↦ Disjoint c.pages d.pages) ∧
    (∀ c ∈ calls, ∀ p ∈ c.pages, ∃ x ∈ log, x.page = p) ∧
    (∀ x ∈ log, x.page ∉ V ∧ x.frame ∉ F ∧ ∀ a, InKernel a → a / archPageSize = x.page →
      isPagePresent s a = some true ∧ convertVirtToPhys s a = x.phys + a % archPageSize ∧
        convertVirtToPhysNarrow s a = convertVirtToPhys s a) ∧
    ∀ a b, InKernel a → InKernel b → (∃ x ∈ log, a / archPageSize = x.page) →
      (∃ x ∈ log, b / archPageSize = x.page) →
      convertVirtToPhys s a = convertVirtToPhys s b → a = b := by
  obtain ⟨F', V', hE⟩ := hrun.ended hstart
  refine ⟨hE.apart, hE.mapped, fun x hx ↦ ⟨(hE.fresh.page.mem x hx).2, (hE.fresh.frame.mem x hx).2,
    fun a ha hpage ↦ hE.translate hx ha hpage⟩, ?_⟩
  rintro a b ha hb ⟨x, hx, hax⟩ ⟨y, hy, hby⟩ heq
  exact hE.inj hx hy ha hb hax hby heq

/-! ### A machine whose tables are marked -/

/-- The first word of a bitmap that lies 2 MiB from `KERNEL_VIRTUAL_BASE` on. -/
abbrev marksWord : ℕ := 0x1FFFFFFFF0040000

/-- A table of pointers to its chunks, apart from it. -/
def apartTable : ChunkTable := ChunkTable.tableApart marksWord (by decide)

/-- The machine with room and one frame, the 512 pages of its tables being marked. -/
def markedMachine : Machine := (freshMachine oneFrame).setMarks fun w ↦
  if marksWord + 8 ≤ w ∧ w < marksWord + 16 then BitVec.allOnes 64 else 0#64

/-- The pages of its tables. -/
def tablePages : Set ℕ := {p | ∃ j, j < 512 ∧ p = kernelVirtualBase / archPageSize + 512 + j}

theorem marks_markedMachine (w : ℕ) : apartTable.marks markedMachine.rest.marks w =
    if 8 ≤ w ∧ w < 16 then BitVec.allOnes 64 else 0#64 := by
  have hiff : marksWord + 8 ≤ marksWord + w ∧ marksWord + w < marksWord + 16 ↔
      8 ≤ w ∧ w < 16 := by omega
  exact if_congr hiff rfl rfl

theorem tidy_markedMachine : Tidy (kernelLedger apartTable) markedMachine ∅ tablePages := by
  refine ⟨⟨⟨_, _, wellFormed_oneFrame.sound, by simp, fun q hq x hx ↦ ?_⟩, ?_⟩,
    (ok_freshMachine oneFrame).distinct, fun i j t ht ↦ ?_⟩
  · rw [listed_singleLists] at hq
    obtain rfl : q = pageSlot pageMaxSize := hq
    have hblock : markedMachine.rest.pm.block (pageSlot pageMaxSize) = ⟨pageMaxSize, 0⟩ := by
      simp [markedMachine, Paging.setMarks, freshMachine, PmState.block, oneFrame, singleState]
    rw [hblock, Block.mem_span] at hx
    dsimp only [archPageSize, pageMaxSize] at hx
    rw [Set.mem_Iio]
    omega
  · rintro p ⟨j, hj, rfl⟩ -
    refine not_clear_of_allOnes ?_
    rw [marks_markedMachine, if_pos]
    dsimp only [kernelVirtualBase, archPageSize]
    omega
  · have ht' : (freshMachine oneFrame).pointer i j = some t := ht
    rw [freshMachine] at ht'
    dsimp only at ht'
    split at ht'
    · obtain rfl := Option.some.inj ht'
      have hj := j.isLt
      refine ⟨?_, j, hj, ?_⟩ <;> · dsimp only [kernelVirtualBase, archPageSize]; omega
    · simp at ht'

/-- When page 0 reads as free, it is what one request for a page gets. -/
theorem safeVm_apartTable {r : Allocators} (hclear : Clear (apartTable.marks r.marks) 0) :
    ∃ m, safeVm apartTable r 1 = .ok (kernelVirtualBase, { r with marks := m }) := by
  have hsafe : apartTable.SafeCall r.marks 1 :=
    ChunkTable.safeCall_tableApart (safeRequest_one (by decide) hclear)
  have hone := vmAllocatePages_one (m := apartTable.marks r.marks) (n := 0) (p := 0) (by decide)
    (fun w hw ↦ absurd hw (Nat.not_lt_zero w)) (by decide) (by decide) (fun x _ hx ↦ by omega)
    hclear
  obtain ⟨m, hcall⟩ : ∃ m, apartTable.vmAllocatePages r.marks 1 =
      .ok ((vmAllocatePages chunkStart (apartTable.marks r.marks) 1).1, m) :=
    ChunkTable.vmAllocatePages_tableApart
  refine ⟨m, ?_⟩
  rw [hone, Nat.zero_mul, Nat.add_zero] at hcall
  unfold safeVm tableVm
  rw [if_pos hsafe, hcall]

/-- One page for the machine with one frame. -/
theorem kernelRun_isolated_oneFrame : ∃ s log,
    allocatePagesWith (tableSource apartTable) 1 markedMachine 1 = .ok (kernelVirtualBase, s) ∧
      PagesRun (safeSource apartTable) markedMachine s [⟨kernelVirtualBase, 1⟩] log ∧
      ∀ p ∈ pagesOf kernelVirtualBase 1, ∃ x ∈ log, x.page = p := by
  obtain ⟨pm, hframe, -, hself, -⟩ := alloc_oneFrame
  have hpm : (safeSource apartTable).pm markedMachine.rest 0 =
      .ok (some pageMaxSize, { markedMachine.rest with pm := pm }) := by
    rw [show (safeSource apartTable).pm = kernelPm from rfl, kernelPm,
      show markedMachine.rest.pm = oneFrame from rfl, hframe]
    simp only [hself]
  have hclear : Clear (apartTable.marks markedMachine.rest.marks) 0 := by
    rw [Clear, marks_markedMachine]
    decide
  obtain ⟨m, hvm⟩ := safeVm_apartTable (r := { markedMachine.rest with pm := pm }) hclear
  have hv : InKernel kernelVirtualBase := ⟨by decide, by decide⟩
  obtain ⟨page, hpage⟩ := Option.ne_none_iff_exists'.mp
    (vmGetPage_freshMachine (s := markedMachine)
      (show markedMachine.pointer = (freshMachine oneFrame).pointer from rfl) (x := 0) (by decide))
  rw [Nat.mul_zero, Nat.add_zero] at hpage
  have hcall := allocatePagesWith_page 0 hpm hvm hv hpage
  have hrun := PagesRun.start.call 1 1 (le_refl 1) (by decide) hcall
  exact ⟨_, _, allocatePagesWith_safeSource hcall, hrun,
    (kernelRun_isolated apartTable tidy_markedMachine hrun).2.1 _ List.mem_cons_self⟩

end CubikOS

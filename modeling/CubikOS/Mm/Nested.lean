import CubikOS.Arch.Trace
import CubikOS.Mm.Malloc

/-!
# MapVirtualAddress and AllocatePages within each other

`MapVirtualAddress` has `AllocatePages(kernel, 1)` supply the page for a missing table, and
`AllocatePages` has `MapVirtualAddress` map what it supplies.  Here the two are taken together,
over whatever `PM_AllocatePages` and `VM_AllocatePages` answer (`PageSource`): the allocators of
the kernel are one such source (`kernelSource`), and what is said about all sources holds whatever
the bitmap and the free lists have come to.

* `allocatePagesWith_spec` says what a call that returns has written: a page for each page it was
  asked for, and one for each table it has made.
* `mapVirtualAddress_leavesAlone_iff` says when a mapping leaves all other pages alone.
* `vmGetIoMapping_translates` is about the window onto the low 4 GiB.
-/

set_option autoImplicit false

namespace CubikOS

/-! ## The functions -/

/-- What `AllocatePages(kernel, amount)` gets frames and addresses from. -/
structure PageSource (ρ : Type) where
  /-- `PM_AllocatePages(order)`: the address of a block, if there is one. -/
  pm : ρ → ℕ → Except Fault (Option ℕ × ρ)
  /-- `VM_AllocatePages(kernel, amount)`. -/
  vm : ρ → ℕ → Except Fault (ℕ × ρ)
  /-- The bookkeeping of the process. -/
  charge : ρ → ℕ → ρ
  /-- There are no blocks above `PAGE_MAX_ORDER`. -/
  pm_order : ∀ r order phys r', pm r order = .ok (some phys, r') → order ≤ pageMaxOrder
  /-- Addresses are those of the topmost 2 GiB. -/
  vm_kernel : ∀ r n virt r', vm r n = .ok (virt, r') →
    virt = 0 ∨ kernelVirtualBase ≤ virt ∧ virt < 2 ^ 64

section Functions

variable {ρ : Type} (A : PageSource ρ)

/-- The second half of `AllocatePages(kernel, amount)`. -/
def mapFramesWith (again : Paging ρ → Except Fault (ℕ × Paging ρ)) (s : Paging ρ)
    (phys amount : ℕ) : Except Fault (ℕ × Paging ρ) :=
  match A.vm s.rest amount with
  | .error f => .error f
  | .ok (virt, r) =>
    match mapVirtualAddress again amount { s with rest := r } phys virt kernelFlags with
    | .error f => .error f
    | .ok s => .ok (virt, { s with rest := A.charge s.rest amount })

/-- `AllocatePages(kernel, amount)` once `amount` has been rounded. -/
def allocateRoundedWith (again : Paging ρ → Except Fault (ℕ × Paging ρ)) (s : Paging ρ)
    (amount : ℕ) : Except Fault (ℕ × Paging ρ) :=
  match A.pm s.rest (pageSizeOrder amount) with
  | .error f => .error f
  | .ok (none, _) => .error .panic
  | .ok (some phys, r) => mapFramesWith A again { s with rest := r } phys amount

/-- `AllocatePages(kernel, amount)`; the fuel bounds how deep the calls nest. -/
def allocatePagesWith : ℕ → Paging ρ → ℕ → Except Fault (ℕ × Paging ρ)
  | 0, _, _ => .error .outOfFuel
  | fuel + 1, s, amount =>
    allocateRoundedWith A (fun s ↦ allocatePagesWith fuel s 1) s (pageSizeAlign amount)

/-- The pages mapped by `AllocatePages(kernel, amount)` once `amount` has been rounded. -/
def roundedLog (again : Paging ρ → Except Fault (ℕ × Paging ρ))
    (againLog : Paging ρ → List Mapping) (s : Paging ρ) (amount : ℕ) : List Mapping :=
  match A.pm s.rest (pageSizeOrder amount) with
  | .ok (some phys, r) =>
    match A.vm r amount with
    | .ok (virt, r) => mapLog again againLog amount { s with rest := r } phys virt kernelFlags
    | .error _ => []
  | _ => []

/-- The pages mapped by `AllocatePages(kernel, amount)`. -/
def allocLog : ℕ → Paging ρ → ℕ → List Mapping
  | 0, _, _ => []
  | fuel + 1, s, amount =>
    roundedLog A (fun s ↦ allocatePagesWith A fuel s 1) (fun s ↦ allocLog fuel s 1) s
      (pageSizeAlign amount)

variable {A} {again : Paging ρ → Except Fault (ℕ × Paging ρ)} {s u : Paging ρ}
  {phys virt amount : ℕ} {r : ρ}

theorem mapFramesWith_of_ok (hvm : A.vm s.rest amount = .ok (virt, r))
    (hmap : mapVirtualAddress again amount { s with rest := r } phys virt kernelFlags = .ok u) :
    mapFramesWith A again s phys amount =
      .ok (virt, { u with rest := A.charge u.rest amount }) := by
  rw [mapFramesWith, hvm]
  simp only [hmap]

theorem mapFramesWith_of_error {f : Fault} (hvm : A.vm s.rest amount = .ok (virt, r))
    (hmap : mapVirtualAddress again amount { s with rest := r } phys virt kernelFlags = .error f) :
    mapFramesWith A again s phys amount = .error f := by
  rw [mapFramesWith, hvm]
  simp only [hmap]

end Functions

/-- `PM_AllocatePages` of the kernel, as a source of frames. -/
def kernelPm (r : Allocators) (order : ℕ) : Except Fault (Option ℕ × Allocators) :=
  match pmAllocatePages r.pm order with
  | .error f => .error f
  | .ok (none, pm) => .ok (none, { r with pm := pm })
  | .ok (some p, pm) => .ok (some (pm.page p).addr, { r with pm := pm })

/-- `VM_AllocatePages` of the kernel, as a source of addresses, with its table of pointers apart
from the words. -/
def kernelVm (r : Allocators) (amount : ℕ) : Except Fault (ℕ × Allocators) :=
  let vm := vmAllocatePages chunkStart r.marks amount
  .ok (vm.1, { r with marks := vm.2 })

/-- The bookkeeping of the kernel process. -/
def kernelCharge (r : Allocators) (amount : ℕ) : Allocators := { r with
  memoryAllocated := (r.memoryAllocated + amount * archPageSize) % 2 ^ 64
  pages := (r.pages + amount) % 2 ^ 32 }

theorem kernelPm_order (r : Allocators) (order phys : ℕ) (r' : Allocators)
    (h : kernelPm r order = .ok (some phys, r')) : order ≤ pageMaxOrder := by
  by_contra hlarge
  rw [kernelPm, pmAllocatePages, if_pos (Nat.lt_of_not_le hlarge)] at h
  simp at h

theorem kernelVm_kernel (r : Allocators) (n virt : ℕ) (r' : Allocators)
    (h : kernelVm r n = .ok (virt, r')) :
    virt = 0 ∨ kernelVirtualBase ≤ virt ∧ virt < 2 ^ 64 := by
  rw [kernelVm, Except.ok.injEq, Prod.mk.injEq] at h
  exact h.1 ▸ vmAllocatePages_virt chunkStart r.marks n

/-- The allocators of the kernel. -/
def kernelSource : PageSource Allocators where
  pm := kernelPm
  vm := kernelVm
  charge := kernelCharge
  pm_order := kernelPm_order
  vm_kernel := kernelVm_kernel

theorem mapFramesWith_kernelSource (again : Machine → Except Fault (ℕ × Machine)) (s : Machine)
    (phys amount : ℕ) : mapFramesWith kernelSource again s phys amount =
      mapFrames again s phys amount := by
  rcases hvm : vmAllocatePages chunkStart s.rest.marks amount with ⟨virt, m⟩
  have hsource : kernelSource.vm s.rest amount = .ok (virt, { s.rest with marks := m }) := by
    rw [show kernelSource.vm = kernelVm from rfl, kernelVm, hvm]
  rcases hmap : mapVirtualAddress again amount (s.setMarks m) phys virt kernelFlags with f | u
  · rw [mapFramesWith_of_error hsource hmap, mapFrames, hvm]
    simp only [hmap]
  · rw [mapFramesWith_of_ok hsource hmap, mapFrames_ok hvm hmap]
    rfl

theorem allocateRoundedWith_kernelSource (again : Machine → Except Fault (ℕ × Machine))
    (s : Machine) (amount : ℕ) : allocateRoundedWith kernelSource again s amount =
      allocateRounded again s amount := by
  unfold allocateRoundedWith allocateRounded
  rw [show kernelSource.pm = kernelPm from rfl, kernelPm]
  rcases pmAllocatePages s.rest.pm (pageSizeOrder amount) with f | ⟨_ | p, pm⟩
  · rfl
  · rfl
  · exact mapFramesWith_kernelSource again (s.setPm pm) (pm.page p).addr amount

/-- With the allocators of the kernel it is `AllocatePages` as it stands. -/
theorem allocatePagesWith_kernelSource (fuel : ℕ) (s : Machine) (amount : ℕ) :
    allocatePagesWith kernelSource fuel s amount = allocatePages fuel s amount := by
  induction fuel generalizing s amount with
  | zero => rfl
  | succ fuel ih =>
    rw [allocatePagesWith, allocatePages, allocateRoundedWith_kernelSource]
    simp only [ih]

/-! ## What a call that returns has written -/

section Spec

variable {ρ : Type} {A : PageSource ρ} {s s' : Paging ρ} {fuel virt amount : ℕ}

/-- **A call that returns** was given frames and addresses and has mapped the ones to the others. -/
theorem allocatePagesWith_ok (h : allocatePagesWith A fuel s amount = .ok (virt, s')) :
    ∃ fuel' phys r r' u, fuel = fuel' + 1 ∧
      A.pm s.rest (pageSizeOrder (pageSizeAlign amount)) = .ok (some phys, r) ∧
      A.vm r (pageSizeAlign amount) = .ok (virt, r') ∧
      mapVirtualAddress (fun u ↦ allocatePagesWith A fuel' u 1) (pageSizeAlign amount)
        { s with rest := r' } phys virt kernelFlags = .ok u ∧
      s' = { u with rest := A.charge u.rest (pageSizeAlign amount) } ∧
      allocLog A fuel s amount = mapLog (fun u ↦ allocatePagesWith A fuel' u 1)
        (fun u ↦ allocLog A fuel' u 1) (pageSizeAlign amount) { s with rest := r' } phys virt
        kernelFlags := by
  rcases fuel with _ | fuel
  · simp [allocatePagesWith] at h
  rw [allocatePagesWith] at h
  rw [allocLog]
  generalize pageSizeAlign amount = n at *
  rw [allocateRoundedWith] at h
  split at h
  · simp at h
  · simp at h
  · rename_i phys r hpm
    rcases hvm : A.vm r n with f | ⟨virt', r'⟩
    · rw [mapFramesWith, hvm] at h
      simp at h
    · rcases hmap : mapVirtualAddress (fun u ↦ allocatePagesWith A fuel u 1) n
        { s with rest := r' } phys virt' kernelFlags with f | u
      · rw [mapFramesWith_of_error (s := { s with rest := r }) hvm hmap] at h
        simp at h
      · rw [mapFramesWith_of_ok (s := { s with rest := r }) hvm hmap, Except.ok.injEq,
          Prod.mk.injEq] at h
        obtain ⟨rfl, rfl⟩ := h
        refine ⟨fuel, phys, r, r', u, rfl, hpm, hvm, hmap, rfl, ?_⟩
        rw [roundedLog, hpm]
        simp only [hvm]

/-- A call returns only for a number of pages that did not overflow. -/
theorem pageSizeAlign_ne_zero {r r' : ρ} {n phys : ℕ}
    (h : A.pm r (pageSizeOrder n) = .ok (some phys, r')) : n ≠ 0 := by
  rintro rfl
  have := A.pm_order _ _ _ _ h
  rw [pageSizeOrder_zero] at this
  exact absurd this (by decide)

/-- The addresses of a call that returns are the kernel's. -/
theorem inKernel_of_map {again : Paging ρ → Except Fault (ℕ × Paging ρ)} {r r' : ρ} {n phys : ℕ}
    {u : Paging ρ} (hvm : A.vm r n = .ok (virt, r'))
    (hmap : mapVirtualAddress again n s phys virt kernelFlags = .ok u) (hn : n ≠ 0) :
    InKernel virt := by
  rcases A.vm_kernel r n virt r' hvm with rfl | ⟨hbase, hlt⟩
  · obtain ⟨n, rfl⟩ := Nat.exists_eq_succ_of_ne_zero hn
    rw [mapVirtualAddress, if_neg (by decide)] at hmap
    simp at hmap
  · exact ⟨le_trans (by decide) hbase, hlt⟩

theorem eq_of_mem_pagesOf_one {t p : ℕ} (h : p ∈ pagesOf t (pageSizeAlign 1)) :
    p = t / archPageSize := by
  obtain ⟨k, hk, hpage⟩ := h
  rw [show pageSizeAlign 1 = 1 from rfl] at hk
  omega

/-- **What a call that returns has written**: the pages it was asked for, and one for each table it
has made. -/
theorem allocatePagesWith_spec (h : allocatePagesWith A fuel s amount = .ok (virt, s')) :
    Writes s (allocLog A fuel s amount) s' ∧
    ∀ x ∈ allocLog A fuel s amount,
      x.page ∈ pagesOf virt (pageSizeAlign amount) ∨ NewTable s s' x.page := by
  induction fuel generalizing s s' virt amount with
  | zero => simp [allocatePagesWith] at h
  | succ fuel ih =>
    obtain ⟨fuel', phys, r, r', u, heq, -, hvm, hmap, rfl, hlog⟩ := allocatePagesWith_ok h
    obtain rfl : fuel = fuel' := Nat.succ_injective heq
    have hwrites : ∀ (u : Paging ρ) (t : ℕ) (u' : Paging ρ),
        allocatePagesWith A fuel u 1 = .ok (t, u') → Writes u (allocLog A fuel u 1) u' :=
      fun u t u' h ↦ (ih h).1
    have hpages : ∀ (u : Paging ρ) (t : ℕ) (u' : Paging ρ),
        allocatePagesWith A fuel u 1 = .ok (t, u') →
          ∀ x ∈ allocLog A fuel u 1, x.page = t / archPageSize ∨ NewTable u u' x.page := by
      exact fun u t u' h x hx ↦ ((ih h).2 x hx).imp_left eq_of_mem_pagesOf_one
    have hv := inKernel_of_map hvm hmap
    rw [hlog]
    refine ⟨(Writes.rest r' (mapVirtualAddress_writes hwrites hv hmap)).setRest _, fun x hx ↦ ?_⟩
    exact (mapLog_pages hwrites hpages hv hmap x hx).imp_left And.left

/-- What `mapVirtualAddress_writes` asks of the allocations within. -/
theorem allocatePagesWith_writes (A : PageSource ρ) (fuel : ℕ) (u : Paging ρ) (t : ℕ)
    (u' : Paging ρ) (h : allocatePagesWith A fuel u 1 = .ok (t, u')) :
    Writes u (allocLog A fuel u 1) u' := (allocatePagesWith_spec h).1

/-- What `mapLog_pages` asks of them. -/
theorem allocLog_pages (A : PageSource ρ) (fuel : ℕ) (u : Paging ρ) (t : ℕ) (u' : Paging ρ)
    (h : allocatePagesWith A fuel u 1 = .ok (t, u')) :
    ∀ x ∈ allocLog A fuel u 1, x.page = t / archPageSize ∨ NewTable u u' x.page := by
  exact fun x hx ↦ ((allocatePagesWith_spec h).2 x hx).imp_left eq_of_mem_pagesOf_one

/-- The kernel's pages are all mapped with the same flags. -/
theorem allocLog_flags (A : PageSource ρ) (fuel : ℕ) (u : Paging ρ) (n : ℕ) :
    ∀ x ∈ allocLog A fuel u n, x.flags = kernelFlags := by
  induction fuel generalizing u n with
  | zero => exact fun x hx ↦ absurd hx List.not_mem_nil
  | succ fuel ih =>
    intro x hx
    rw [allocLog, roundedLog] at hx
    split at hx
    · split at hx
      · exact mapLog_flags (P := fun flags ↦ flags = kernelFlags) (fun w ↦ ih w 1) rfl x hx
      · exact absurd hx List.not_mem_nil
    · exact absurd hx List.not_mem_nil

/-- Page 0 is never supplied. -/
theorem allocatePagesWith_ne_zero (A : PageSource ρ) (fuel : ℕ) (u : Paging ρ) (t : ℕ)
    (u' : Paging ρ) (h : allocatePagesWith A fuel u 1 = .ok (t, u')) : t ≠ 0 := by
  obtain ⟨fuel', phys, r, r', w, -, -, hvm, hmap, -⟩ := allocatePagesWith_ok h
  rintro rfl
  exact absurd (inKernel_of_map hvm hmap (by decide)).1 (by decide)

end Spec

/-! ## What a mapping leaves alone -/

/-- What is expected of a mapping of `range`: every other page, but for those of new tables, is
present afterwards if it was before, and is translated as before. -/
def LeavesAlone {ρ : Type} (s s' : Paging ρ) (range : Set ℕ) : Prop :=
  ∀ q, InKernel q → q / archPageSize ∉ range → ¬ NewTable s s' (q / archPageSize) →
    isPagePresent s' q = isPagePresent s q ∧
      (isPagePresent s q = some true → convertVirtToPhys s' q = convertVirtToPhys s q)

section LeavesAlone

variable {ρ : Type} {s s' : Paging ρ} {q t : ℕ}

theorem isPagePresent_of_pointer (hq : InKernel q)
    (h : s.pointer (pdptGetIndex q) (pdirGetIndex q) = some t) :
    isPagePresent s q = some (s.table t (pageGetIndex q)).present := by
  rw [isPagePresent, if_pos hq.pml4GetIndex,
    (vmGetPage_eq_some (r := (t, pageGetIndex q)) hq).mpr ⟨h, rfl⟩]

theorem isPagePresent_of_none (hq : InKernel q)
    (h : s.pointer (pdptGetIndex q) (pdirGetIndex q) = none) : isPagePresent s q = some false := by
  rw [isPagePresent, if_pos hq.pml4GetIndex, (vmGetPage_eq_none hq).mpr h]

theorem convertVirtToPhys_of_pointer (hq : InKernel q)
    (h : s.pointer (pdptGetIndex q) (pdirGetIndex q) = some t) : convertVirtToPhys s q =
      ((s.table t (pageGetIndex q)).addr * archPageSize + (q &&& 0xFFF)) % 2 ^ 64 := by
  rw [convertVirtToPhys, if_pos hq.pml4GetIndex, h]

/-- Page `q`, whose table is at `t` afterwards, keeps its entry while the pages of the log are
mapped.  If none of them has the same entry, the table was there before or held no present entry for
`q`.  If some have, the page was present, and the last of them goes to the frame that it went to. -/
def KeepsEntry (s s' : Paging ρ) (log : List Mapping) (q t : ℕ) : Prop :=
  match lastInto s'.pointer t (pageGetIndex q) log with
  | none => s.pointer (pdptGetIndex q) (pdirGetIndex q) = none →
    (s.table t (pageGetIndex q)).present = false
  | some x => isPagePresent s q = some true ∧
    convertVirtToPhys s q = (x.entry.addr * archPageSize + (q &&& 0xFFF)) % 2 ^ 64

/-- Which page is left alone depends on what its table held when it was supplied, and on the pages
that share its entry. -/
theorem Writes.keepsEntry_iff {log : List Mapping} (h : Writes s log s') (hq : InKernel q)
    (ht : s'.pointer (pdptGetIndex q) (pdirGetIndex q) = some t) :
    (isPagePresent s' q = isPagePresent s q ∧
      (isPagePresent s q = some true → convertVirtToPhys s' q = convertVirtToPhys s q)) ↔
      KeepsEntry s s' log q t := by
  have htable := h.table_eq (fun _ _ _ h ↦ h) t (pageGetIndex q)
  rw [isPagePresent_of_pointer hq ht, convertVirtToPhys_of_pointer hq ht, KeepsEntry]
  rcases hlast : lastInto s'.pointer t (pageGetIndex q) log with _ | x
  · have hsame : s'.table t (pageGetIndex q) = s.table t (pageGetIndex q) := by
      rw [htable, hlast]
      rfl
    rw [hsame]
    rcases hs : s.pointer (pdptGetIndex q) (pdirGetIndex q) with _ | t'
    · simp [isPagePresent_of_none hq hs]
    · obtain rfl : t' = t := Option.some.inj ((h.pointer hs).symm.trans ht)
      simp [isPagePresent_of_pointer hq hs, convertVirtToPhys_of_pointer hq hs]
  · have hentry : s'.table t (pageGetIndex q) = x.entry := by
      rw [htable, hlast]
      rfl
    rw [hentry, show x.entry.present = true from rfl]
    constructor
    · rintro ⟨hpresent, hconvert⟩
      exact ⟨hpresent.symm, (hconvert hpresent.symm).symm⟩
    · rintro ⟨hpresent, hconvert⟩
      exact ⟨hpresent.symm, fun _ ↦ hconvert.symm⟩

/-- **When a mapping leaves all other pages alone**: each of them keeps its entry.  Whenever a table
has been made, the page that was supplied for it held no present entry for any of them; and none of
them shares its entry with a page that was mapped, unless both go to the same frame. -/
theorem mapVirtualAddress_leavesAlone_iff (A : PageSource ρ) (fuel : ℕ) {n phys virt flags : ℕ}
    (hv : n ≠ 0 → InKernel virt)
    (hrun : mapVirtualAddress (fun u ↦ allocatePagesWith A fuel u 1) n s phys virt flags = .ok s') :
    LeavesAlone s s' (pagesOf virt n) ↔
      ∀ q, InKernel q → q / archPageSize ∉ pagesOf virt n →
        ¬ NewTable s s' (q / archPageSize) →
        ∀ t, s'.pointer (pdptGetIndex q) (pdirGetIndex q) = some t →
          KeepsEntry s s' (mapLog (fun u ↦ allocatePagesWith A fuel u 1)
            (fun u ↦ allocLog A fuel u 1) n s phys virt flags) q t := by
  have hwrites := mapVirtualAddress_writes (allocatePagesWith_writes A fuel) hv hrun
  refine forall_congr' fun q ↦ forall₃_congr fun hq _ _ ↦ ?_
  constructor
  · intro h t ht
    exact (hwrites.keepsEntry_iff hq ht).mp h
  · intro h
    rcases hs' : s'.pointer (pdptGetIndex q) (pdirGetIndex q) with _ | t
    · -- a page without a table had none before
      have hs : s.pointer (pdptGetIndex q) (pdirGetIndex q) = none := by
        rcases hs : s.pointer (pdptGetIndex q) (pdirGetIndex q) with _ | t
        · rfl
        · exact absurd ((hwrites.pointer hs).symm.trans hs') (by simp)
      rw [isPagePresent_of_none hq hs, isPagePresent_of_none hq hs']
      exact ⟨rfl, fun h ↦ by simp at h⟩
    · exact (hwrites.keepsEntry_iff hq hs').mpr (h t hs')

/-- Among distinct tables, a page that is neither of the range nor of a new table shares its entry
with none that is mapped. -/
theorem lastInto_mapLog (A : PageSource ρ) (fuel : ℕ) {n phys virt flags : ℕ}
    (hv : n ≠ 0 → InKernel virt) (hd : s'.DistinctTables)
    (hrun : mapVirtualAddress (fun u ↦ allocatePagesWith A fuel u 1) n s phys virt flags = .ok s')
    (hq : InKernel q) (hrange : q / archPageSize ∉ pagesOf virt n)
    (hnew : ¬ NewTable s s' (q / archPageSize))
    (ht : s'.pointer (pdptGetIndex q) (pdirGetIndex q) = some t) :
    lastInto s'.pointer t (pageGetIndex q) (mapLog (fun u ↦ allocatePagesWith A fuel u 1)
      (fun u ↦ allocLog A fuel u 1) n s phys virt flags) = none := by
  have hwrites := mapVirtualAddress_writes (allocatePagesWith_writes A fuel) hv hrun
  rw [lastInto_eq_lastOn fun x hx ↦ Mapping.into_iff hd (hwrites.inKernel x hx) hq ht,
    lastOn_eq_none]
  intro x hx hpage
  rcases mapLog_pages (allocatePagesWith_writes A fuel) (allocLog_pages A fuel) hv hrun x hx with
    ⟨hmem, -⟩ | htable
  · exact hrange (hpage ▸ hmem)
  · exact hnew (hpage ▸ htable)

end LeavesAlone

/-! ### A table on a page that was used before -/

/-- A single page, mapped through a table that is there. -/
theorem allocatePagesWith_page {ρ : Type} {A : PageSource ρ} {s : Paging ρ} {r r' : ρ}
    {phys virt : ℕ} {page : EntryRef} (fuel : ℕ) (hpm : A.pm s.rest 0 = .ok (some phys, r))
    (hvm : A.vm r 1 = .ok (virt, r')) (hv : InKernel virt) (hpage : vmGetPage s virt = some page) :
    allocatePagesWith A (fuel + 1) s 1 = .ok (virt,
      { s.setEntry page (mapEntry phys kernelFlags) with rest := A.charge r' 1 }) := by
  have hfind : findEntry (fun u ↦ allocatePagesWith A fuel u 1) { s with rest := r' } virt
      kernelFlags = .ok (page, { s with rest := r' }) := by
    rw [findEntry, show vmGetPage { s with rest := r' } virt = some page from hpage]
  have hpm' : A.pm s.rest (pageSizeOrder 1) = .ok (some phys, r) := hpm
  rw [allocatePagesWith, show pageSizeAlign 1 = 1 from rfl, allocateRoundedWith, hpm']
  exact mapFramesWith_of_ok (s := { s with rest := r }) hvm (mapVirtualAddress_page hv hfind)

/-- The machine with room and one frame, its memory holding `table`. -/
def machineWith (table : ℕ → Fin 512 → Entry) : Machine :=
  { freshMachine oneFrame with table := table }

theorem machineWith_pointer (table : ℕ → Fin 512 → Entry) (i j : Fin 512) :
    (machineWith table).pointer i j =
      if (i : ℕ) = 510 then some (0xFFFFFFFF80200000 + archPageSize * j) else none := rfl

theorem distinct_machineWith (table : ℕ → Fin 512 → Entry) : (machineWith table).DistinctTables :=
  (ok_freshMachine oneFrame).distinct

/-- A page is supplied, on the one frame there is. -/
theorem allocatePagesWith_oneFrame {s : Machine} {virt : ℕ} {m : Words} {page : EntryRef}
    (fuel : ℕ) (hpm : s.rest.pm = oneFrame)
    (hvm : vmAllocatePages chunkStart s.rest.marks 1 = (virt, m)) (hv : InKernel virt)
    (hpage : vmGetPage s virt = some page) :
    ∃ r, allocatePagesWith kernelSource (fuel + 1) s 1 = .ok (virt,
      { s.setEntry page (mapEntry pageMaxSize kernelFlags) with rest := r }) := by
  obtain ⟨pm, hframe, -, hself, -⟩ := alloc_oneFrame
  have hframes : kernelSource.pm s.rest 0 = .ok (some pageMaxSize, { s.rest with pm := pm }) := by
    rw [show kernelSource.pm = kernelPm from rfl, kernelPm, hpm, hframe]
    simp only [hself]
  have hsource : kernelSource.vm { s.rest with pm := pm } 1 = .ok (virt,
      { s.rest with pm := pm, marks := m }) := by
    rw [show kernelSource.vm = kernelVm from rfl, kernelVm]
    simp only [hvm]
  exact ⟨_, allocatePagesWith_page fuel hframes hsource hv hpage⟩

/-- It becomes the table of an address that has none. -/
theorem findEntry_oneFrame {s : Machine} {virt v : ℕ} {m : Words} {page : EntryRef} (flags : ℕ)
    (hpm : s.rest.pm = oneFrame)
    (hvm : vmAllocatePages chunkStart s.rest.marks 1 = (virt, m)) (hv : InKernel virt)
    (hpage : vmGetPage s virt = some page) (hget : vmGetPage s v = none)
    (habsent : (s.dir (pdptGetIndex v) (pdirGetIndex v)).present = false) :
    ∃ u, findEntry (fun u ↦ allocatePagesWith kernelSource 1 u 1) s v flags =
        .ok ((virt, pageGetIndex v), u) ∧
      ∀ i j, u.pointer i j = if i = pdptGetIndex v ∧ j = pdirGetIndex v
        then some virt else s.pointer i j := by
  obtain ⟨r, halloc⟩ := allocatePagesWith_oneFrame (s := s.openDir v flags) 0 hpm hvm hv hpage
  generalize hu : Paging.mk _ _ _ r = u at halloc
  have hzero : virt ≠ 0 := by
    rintro rfl
    exact absurd hv.1 (by decide)
  refine ⟨u.installTable v virt, findEntry_of_absent hget habsent halloc hzero, fun i j ↦ ?_⟩
  rw [Paging.installTable, setPointer_pointer, ← hu]
  rfl

/-- The first page of the topmost 2 GiB is handed out first. -/
theorem vmAllocatePages_first : vmAllocatePages chunkStart (fun _ ↦ 0#64) 1 =
    (kernelVirtualBase, markPages chunkStart 1 (fun _ ↦ 0#64) 0) :=
  vmAllocatePages_one (m := fun _ ↦ 0#64) (n := 0) (p := 0) (by decide)
    (fun w hw ↦ absurd hw (Nat.not_lt_zero w)) (by decide) (by decide) (fun x _ hx ↦ by omega)
    (by decide)

/-- With that table the tables are distinct, if they were and none was there. -/
theorem distinct_of_install {P Q : Fin 512 → Fin 512 → Option ℕ} {i₀ j₀ : Fin 512} {t₀ : ℕ}
    (hQ : ∀ i j, Q i j = if i = i₀ ∧ j = j₀ then some t₀ else P i j)
    (hP : ∀ i j i' j' t, P i j = some t → P i' j' = some t → i = i' ∧ j = j')
    (hfresh : ∀ i j, P i j ≠ some t₀) :
    ∀ i j i' j' t, Q i j = some t → Q i' j' = some t → i = i' ∧ j = j' := by
  intro i j i' j' t h1 h2
  rw [hQ] at h1 h2
  split at h1
  · split at h2
    · rename_i hc hc'
      exact ⟨hc.1.trans hc'.1.symm, hc.2.trans hc'.2.symm⟩
    · exact absurd (h2.trans h1.symm) (hfresh i' j')
  · split at h2
    · exact absurd (h1.trans h2.symm) (hfresh i j)
    · exact hP i j i' j' t h1 h2

/-- The first page of the window is mapped on such a machine, and has its table there. -/
theorem mapVirtualAddress_machineWith (table : ℕ → Fin 512 → Entry) : ∃ s',
    mapVirtualAddress (fun u ↦ allocatePagesWith kernelSource 1 u 1) 1 (machineWith table) 0
      kernelLow4gb 3 = .ok s' ∧ s'.DistinctTables ∧
    ∀ i j, s'.pointer i j = if i = pdptGetIndex kernelLow4gb ∧ j = pdirGetIndex kernelLow4gb
      then some kernelVirtualBase else (machineWith table).pointer i j := by
  have hlow : InKernel kernelLow4gb := ⟨by decide, by decide⟩
  have hbase : InKernel kernelVirtualBase := ⟨by decide, by decide⟩
  have hget : vmGetPage (machineWith table) kernelLow4gb = none := by
    rw [vmGetPage_eq_none hlow, machineWith_pointer, if_neg (by decide)]
  have hpage : vmGetPage (machineWith table) kernelVirtualBase = some (0xFFFFFFFF80200000, 0) := by
    refine (vmGetPage_eq_some hbase).mpr ⟨?_, by decide⟩
    rw [machineWith_pointer, if_pos (by decide)]
    decide
  obtain ⟨u, hfind, hpointer⟩ := findEntry_oneFrame (s := machineWith table) 3 rfl
    vmAllocatePages_first hbase hpage hget rfl
  refine ⟨_, mapVirtualAddress_page hlow hfind, ?_, hpointer⟩
  refine distinct_of_install hpointer (distinct_machineWith table) fun i j h ↦ ?_
  rw [machineWith_pointer] at h
  split at h
  · rw [Option.some.injEq] at h
    dsimp only [archPageSize, kernelVirtualBase] at h
    omega
  · simp at h

/-- On memory that holds no present entry, mapping a page leaves the others alone. -/
theorem mapVirtualAddress_leavesAlone_iff_clean : ∃ s',
    mapVirtualAddress (fun u ↦ allocatePagesWith kernelSource 1 u 1) 1
        (machineWith fun _ _ ↦ ⟨false, false, false, 0⟩) 0 kernelLow4gb 3 = .ok s' ∧
      LeavesAlone (machineWith fun _ _ ↦ ⟨false, false, false, 0⟩) s'
        (pagesOf kernelLow4gb 1) := by
  obtain ⟨s', hrun, hd, -⟩ := mapVirtualAddress_machineWith fun _ _ ↦ ⟨false, false, false, 0⟩
  have hv : 1 ≠ 0 → InKernel kernelLow4gb := fun _ ↦ ⟨by decide, by decide⟩
  refine ⟨s', hrun, (mapVirtualAddress_leavesAlone_iff kernelSource 1 hv hrun).mpr
    fun q hq hrange hnew t ht ↦ ?_⟩
  rw [KeepsEntry, lastInto_mapLog kernelSource 1 hv hd hrun hq hrange hnew ht]
  exact fun _ ↦ rfl

/-- What the page supplied for the table held before: entries that are marked present. -/
def usedPage : ℕ → Fin 512 → Entry := fun t _ ↦ ⟨decide (t = kernelVirtualBase), true, false, 7⟩

/-- **A page nobody has mapped**: the first page of the window is mapped, its table is put on a page
that was used before, and the second page of the window is present. -/
theorem mapVirtualAddress_shows_old_entries : ∃ s',
    mapVirtualAddress (fun u ↦ allocatePagesWith kernelSource 1 u 1) 1 (machineWith usedPage) 0
        kernelLow4gb 3 = .ok s' ∧ s'.DistinctTables ∧
      isPagePresent (machineWith usedPage) (kernelLow4gb + archPageSize) = some false ∧
      isPagePresent s' (kernelLow4gb + archPageSize) = some true ∧
      ¬ LeavesAlone (machineWith usedPage) s' (pagesOf kernelLow4gb 1) := by
  obtain ⟨s', hrun, hd, hpointer⟩ := mapVirtualAddress_machineWith usedPage
  have hv : 1 ≠ 0 → InKernel kernelLow4gb := fun _ ↦ ⟨by decide, by decide⟩
  have hq : InKernel (kernelLow4gb + archPageSize) := ⟨by decide, by decide⟩
  have hnone : (machineWith usedPage).pointer (pdptGetIndex (kernelLow4gb + archPageSize))
      (pdirGetIndex (kernelLow4gb + archPageSize)) = none := by
    rw [machineWith_pointer, if_neg (by decide)]
  have hsome : s'.pointer (pdptGetIndex (kernelLow4gb + archPageSize))
      (pdirGetIndex (kernelLow4gb + archPageSize)) = some kernelVirtualBase := by
    rw [hpointer, if_pos (by decide)]
  have hrange : (kernelLow4gb + archPageSize) / archPageSize ∉ pagesOf kernelLow4gb 1 := by
    rintro ⟨k, hk, heq⟩
    dsimp only [kernelLow4gb, archPageSize] at heq
    omega
  -- the only table that is made lies in the topmost 2 GiB
  have hnew : ∀ p, NewTable (machineWith usedPage) s' p → p = kernelVirtualBase / archPageSize := by
    rintro p ⟨i, j, t, hold, ht, rfl⟩
    rw [hpointer] at ht
    split at ht
    · rw [Option.some.injEq] at ht
      rw [ht]
    · rw [hold] at ht
      simp at ht
  have hother : ¬ NewTable (machineWith usedPage) s'
      ((kernelLow4gb + archPageSize) / archPageSize) :=
    fun h ↦ absurd (hnew _ h) (by decide)
  have hwrites := mapVirtualAddress_writes (allocatePagesWith_writes kernelSource 1) hv hrun
  have hentry := hwrites.table_eq (fun _ _ _ h ↦ h) kernelVirtualBase
    (pageGetIndex (kernelLow4gb + archPageSize))
  rw [lastInto_mapLog kernelSource 1 hv hd hrun hq hrange hother hsome] at hentry
  have hbefore := isPagePresent_of_none hq hnone
  have hafter : isPagePresent s' (kernelLow4gb + archPageSize) = some true := by
    rw [isPagePresent_of_pointer hq hsome, hentry]
    rfl
  refine ⟨s', hrun, hd, hbefore, hafter, fun h ↦ ?_⟩
  have hsame := (h _ hq hrange hother).1
  rw [hbefore, hafter] at hsame
  simp at hsame

/-! ## The window onto the low 4 GiB -/

/-- `KERNEL_IO_VIRTUAL_BASE`. -/
abbrev kernelIoVirtualBase : ℕ := 0xFFFFFF9300000000

/-- `VM_GetIOMapping(address)`. -/
def vmGetIoMapping (address : ℕ) : ℕ :=
  if address > 0xFFFFFFFF then 0xFFFFFFFF else (address + kernelIoVirtualBase) % 2 ^ 64

/-- The number of pages of the low 4 GiB. -/
abbrev windowPages : ℕ := 0x100000

/-- The mapping `MemoryInitialize` ends with. -/
def mapWindow {ρ : Type} (allocatePages : Paging ρ → Except Fault (ℕ × Paging ρ))
    (s : Paging ρ) : Except Fault (Paging ρ) :=
  mapVirtualAddress allocatePages windowPages s 0 kernelLow4gb
    (pageFlagPresent ||| pageFlagWritable)

section Window

variable {ρ : Type} {s s' : Paging ρ}

/-- An address of the window. -/
theorem vmGetIoMapping_eq {address : ℕ} (h : address ≤ 0xFFFFFFFF) :
    vmGetIoMapping address = kernelLow4gb + address ∧ InKernel (kernelLow4gb + address) ∧
      (kernelLow4gb + address) / archPageSize =
        kernelLow4gb / archPageSize + address / archPageSize ∧
      (kernelLow4gb + address) % archPageSize = address % archPageSize ∧
      address / archPageSize < windowPages := by
  have haddr : vmGetIoMapping address = kernelLow4gb + address := by
    rw [vmGetIoMapping, if_neg (Nat.not_lt.mpr h)]
    dsimp only [kernelIoVirtualBase, kernelLow4gb]
    omega
  refine ⟨haddr, ⟨?_, ?_⟩, ?_, ?_, ?_⟩
  all_goals dsimp only [kernelLow4gb, kernelAddrSpace, archPageSize, windowPages]; omega

/-- **The window is an exact image of the low 4 GiB.**  The mapping fails only if a page for a table
is not to be had.  When it has returned, its tables being distinct and lying outside the window,
each of the first `2 ^ 32` addresses is present at `VM_GetIOMapping` and is what that address
translates to. -/
theorem vmGetIoMapping_translates (A : PageSource ρ) (fuel : ℕ) (hs : s.Complete) :
    (∀ f, mapWindow (fun u ↦ allocatePagesWith A fuel u 1) s = .error f →
      ∃ u, allocatePagesWith A fuel u 1 = .error f) ∧
    ∀ s', mapWindow (fun u ↦ allocatePagesWith A fuel u 1) s = .ok s' → s'.DistinctTables →
      (∀ p ∈ pagesOf kernelLow4gb windowPages, ¬ NewTable s s' p) →
      ∀ address, address ≤ 0xFFFFFFFF →
        isPagePresent s' (vmGetIoMapping address) = some true ∧
        convertVirtToPhys s' (vmGetIoMapping address) = address := by
  have hlow : InKernel kernelLow4gb := ⟨by decide, by decide⟩
  refine ⟨fun f hrun ↦ mapVirtualAddress_fails (allocatePagesWith_writes A fuel)
    (allocatePagesWith_ne_zero A fuel) hs (fun _ ↦ hlow.1) (by decide) hrun,
    fun s' hrun hd hout address haddr ↦ ?_⟩
  obtain ⟨heq, hin, hpage, hoff, hlt⟩ := vmGetIoMapping_eq haddr
  have hwrites := mapVirtualAddress_writes (allocatePagesWith_writes A fuel) (fun _ ↦ hlow) hrun
  have hlast := lastOn_mapLog (allocatePagesWith_writes A fuel) (allocLog_pages A fuel) hlow
    (by decide) hrun hout hlt
  rw [Nat.zero_add, ← hpage] at hlast
  have hentry := hwrites.entry_of_last hd hin hlast
  obtain ⟨hpresent, hconvert⟩ := translate_of_mapEntry hin hentry (Nat.dvd_mul_right _ _)
    (by dsimp only [archPageSize] at *; omega)
  rw [heq]
  refine ⟨hpresent, hconvert.trans ?_⟩
  rw [hoff]
  exact Nat.div_add_mod address archPageSize

end Window

/-- A machine on which all tables of the window are there but the first. -/
def windowMachine : Machine where
  dir i j := ⟨decide ((i : ℕ) = 510 ∨ 76 ≤ (i : ℕ) ∧ (i : ℕ) < 80 ∧ ¬ ((i : ℕ) = 76 ∧ (j : ℕ) = 0)),
    true, false, 0⟩
  pointer i j :=
    if (i : ℕ) = 510 then some (0xFFFFFFFF80200000 + archPageSize * j)
    else if 76 ≤ (i : ℕ) ∧ (i : ℕ) < 80 ∧ ¬ ((i : ℕ) = 76 ∧ (j : ℕ) = 0) then
      some (0xFFFFFFFF80400000 + archPageSize * (512 * (i - 76) + j))
    else none
  table _ _ := ⟨false, false, false, 0⟩
  rest := ⟨oneFrame, fun _ ↦ 0#64, 0, 0⟩

theorem windowMachine_pointer {i j : Fin 512} {t : ℕ} (h : windowMachine.pointer i j = some t) :
    (i : ℕ) = 510 ∧ t = 0xFFFFFFFF80200000 + archPageSize * j ∨
    76 ≤ (i : ℕ) ∧ (i : ℕ) < 80 ∧ ¬ ((i : ℕ) = 76 ∧ (j : ℕ) = 0) ∧
      t = 0xFFFFFFFF80400000 + archPageSize * (512 * (i - 76) + j) := by
  rw [windowMachine] at h
  dsimp only at h
  split at h
  · rename_i hi
    rw [Option.some.injEq] at h
    exact Or.inl ⟨hi, h.symm⟩
  · split at h
    · rename_i hi
      rw [Option.some.injEq] at h
      exact Or.inr ⟨hi.1, hi.2.1, hi.2.2, h.symm⟩
    · simp at h

/-- The pages of the window have their tables under four entries of the topmost directory. -/
theorem window_index {k : ℕ} (hk : k < windowPages) :
    (pdptGetIndex (kernelLow4gb + archPageSize * k) : ℕ) = 76 + k / 262144 ∧
    (pdirGetIndex (kernelLow4gb + archPageSize * k) : ℕ) = k / 512 % 512 := by
  rw [pdptGetIndex, pdirGetIndex, tableIndex_val, tableIndex_val]
  dsimp only [kernelLow4gb, archPageSize, windowPages] at *
  omega

theorem window_table {i j : Fin 512} (h1 : 76 ≤ (i : ℕ)) (h2 : (i : ℕ) < 80)
    (h : ¬ (i = pdptGetIndex kernelLow4gb ∧ j = pdirGetIndex kernelLow4gb)) :
    windowMachine.pointer i j ≠ none := by
  have hi : ¬ (i : ℕ) = 510 := by omega
  have hfirst : ¬ ((i : ℕ) = 76 ∧ (j : ℕ) = 0) := by
    rintro ⟨hi, hj⟩
    refine h ⟨Fin.ext (hi.trans (by decide)), Fin.ext (hj.trans (by decide))⟩
  rw [windowMachine]
  dsimp only
  rw [if_neg hi, if_pos ⟨h1, h2, hfirst⟩]
  simp

/-- The page of the first table is supplied, and the mapping returns. -/
theorem mapWindow_windowMachine : ∃ s',
    mapWindow (fun u ↦ allocatePagesWith kernelSource 1 u 1) windowMachine = .ok s' ∧
    ∀ i j, s'.pointer i j = if i = pdptGetIndex kernelLow4gb ∧ j = pdirGetIndex kernelLow4gb
      then some kernelVirtualBase else windowMachine.pointer i j := by
  have hlow : InKernel kernelLow4gb := ⟨by decide, by decide⟩
  have hbase : InKernel kernelVirtualBase := ⟨by decide, by decide⟩
  have hget : vmGetPage windowMachine kernelLow4gb = none := by
    rw [vmGetPage_eq_none hlow]
    decide
  have hpage : vmGetPage windowMachine kernelVirtualBase = some (0xFFFFFFFF80200000, 0) :=
    (vmGetPage_eq_some hbase).mpr ⟨by decide, by decide⟩
  obtain ⟨u, hfind, hpointer⟩ := findEntry_oneFrame (s := windowMachine) 3 rfl
    vmAllocatePages_first hbase hpage hget rfl
  -- the other pages have their tables
  have hnext : (kernelLow4gb + archPageSize) % 2 ^ 64 = kernelLow4gb + archPageSize := by decide
  have hrest : ∃ s', mapVirtualAddress (fun u ↦ allocatePagesWith kernelSource 1 u 1) 0xFFFFF
      (u.setEntry (kernelVirtualBase, pageGetIndex kernelLow4gb) (mapEntry 0 3))
      ((0 + archPageSize) % 2 ^ 64) (kernelLow4gb + archPageSize) 3 = .ok s' ∧
      s'.pointer = u.pointer := by
    refine (mapVirtualAddress_of_tables (fun _ ↦ by decide) (by decide) fun k hk ↦ ?_).imp
      fun s' h ↦ ⟨h.1, h.2.1⟩
    have hk' : k + 1 < windowPages := by dsimp only [windowPages]; omega
    have haddr : kernelLow4gb + archPageSize + archPageSize * k =
        kernelLow4gb + archPageSize * (k + 1) := by rw [Nat.mul_succ]; omega
    have hin : InKernel (kernelLow4gb + archPageSize * (k + 1)) := by
      refine ⟨?_, ?_⟩ <;>
      · dsimp only [kernelLow4gb, kernelAddrSpace, archPageSize, windowPages] at *; omega
    obtain ⟨hi, hj⟩ := window_index hk'
    rw [vmGetPage_setEntry, haddr, Ne, vmGetPage_eq_none hin, hpointer]
    split
    · simp
    · rename_i hfirst
      exact window_table (by omega) (by dsimp only [windowPages] at hk'; omega) hfirst
  obtain ⟨s', hrest, hsame⟩ := hrest
  refine ⟨s', ?_, fun i j ↦ by rw [hsame, hpointer]⟩
  rw [mapWindow, show windowPages = 0xFFFFF + 1 from rfl, mapVirtualAddress,
    if_pos hlow.pml4GetIndex, show pageFlagPresent ||| pageFlagWritable = 3 from rfl, hfind]
  simp only [hnext, hrest]

/-- The statement on that machine: the first table of the window is made, the others are there. -/
theorem vmGetIoMapping_translates_windowMachine : ∃ s',
    mapWindow (fun u ↦ allocatePagesWith kernelSource 1 u 1) windowMachine = .ok s' ∧
      isPagePresent s' (vmGetIoMapping 0xFEE00020) = some true ∧
      convertVirtToPhys s' (vmGetIoMapping 0xFEE00020) = 0xFEE00020 := by
  obtain ⟨s', hrun, hpointer⟩ := mapWindow_windowMachine
  have hcomplete : windowMachine.Complete := by
    intro i j h
    rw [windowMachine] at h ⊢
    dsimp only at h ⊢
    rw [decide_eq_true_iff] at h
    split
    · simp
    · rename_i hi
      rw [if_pos (h.resolve_left hi)]
      simp
  have hfresh : ∀ i j, windowMachine.pointer i j ≠ some kernelVirtualBase := by
    intro i j h
    have := windowMachine_pointer h
    dsimp only [archPageSize, kernelVirtualBase] at this
    omega
  have hd : s'.DistinctTables := by
    refine distinct_of_install hpointer (fun i j i' j' t h h' ↦ ?_) hfresh
    have h1 := windowMachine_pointer h
    have h2 := windowMachine_pointer h'
    dsimp only [archPageSize] at h1 h2
    refine ⟨Fin.ext ?_, Fin.ext ?_⟩ <;> omega
  refine ⟨s', hrun, (vmGetIoMapping_translates kernelSource 1 hcomplete).2 s' hrun hd ?_ 0xFEE00020
    (by decide)⟩
  rintro p ⟨k, hk, rfl⟩ ⟨i, j, t, hold, ht, hpage⟩
  rw [hpointer] at ht
  split at ht
  · rw [Option.some.injEq] at ht
    dsimp only [kernelVirtualBase, kernelLow4gb, archPageSize, windowPages] at *
    omega
  · rw [hold] at ht
    simp at ht

end CubikOS

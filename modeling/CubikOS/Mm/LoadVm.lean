import CubikOS.Arch.Mark
import CubikOS.Mm.Nested

/-!
# Rights of the kernel's pages

`LoadVirtualMemory` of `Kernel/arch/x86_64/paging.c` sets up the kernel's entries of the PML4 and of
the topmost directory, and the 512 tables of the first GiB from `KERNEL_VIRTUAL_BASE` on.  From
there on nothing but `MapVirtualAddress` writes page tables, and the two upper levels are never
written again.

* A page is writable when the entries of all four levels say so.  The directory entry says what the
  first page mapped in its 2 MiB asked for (`effectivelyWritable_iff`), so a page that asks for it
  later may not get it (`mapRun_writeAsAsked_iff`).
* `AllocatePages` maps every page of the kernel for everyone, so the pages are the kernel's own
  until the first call returns (`allocRun_supervisorOnly_iff`).
-/

set_option autoImplicit false

namespace CubikOS

/-! ## The function -/

/-- Where the linker has put the kernel and its page tables. -/
structure Image where
  /-- `&kernelPdpts`. -/
  pdpts : ℕ
  /-- `&kernelPageDirs`. -/
  pageDirs : ℕ
  /-- `&kernelPageTables`. -/
  pageTables : ℕ
  /-- `&KERNEL_START_ADDR`. -/
  startAddr : ℕ
  /-- `&KERNEL_END_ADDR`. -/
  endAddr : ℕ
  /-- The kernel is linked to the topmost 2 GiB. -/
  base_le : kernelVirtualBase ≤ startAddr
  /-- It is not empty. -/
  start_lt : startAddr < endAddr
  /-- It lies in the GiB that has its tables from the start. -/
  end_le : endAddr ≤ kernelVirtualBase + 2 ^ 30

/-- The entries of the two upper levels. -/
structure TopEntries where
  /-- The last entry of `kernelPages`. -/
  pml4 : Entry
  /-- `kernelPdpts.entries`. -/
  pdpt : Fin 512 → Entry

namespace Image

variable (img : Image)

/-- An entry for a table of the kernel itself: present, writable and not for everyone. -/
def topEntry (addr : ℕ) : Entry where
  present := true
  writable := true
  usr := false
  addr := (addr + 2 ^ 64 - kernelVirtualBase) % 2 ^ 64 / archPageSize % 2 ^ 36

/-- The entries `LoadVirtualMemory` writes at the two upper levels. -/
def top : TopEntries where
  pml4 := topEntry img.pdpts
  pdpt i := topEntry (img.pageDirs + archPageSize * i)

/-- The page tables `LoadVirtualMemory` sets up, before it maps anything.  The kernel's own tables
are zero; what other memory holds is `leftover`. -/
def tables {ρ : Type} (leftover : ℕ → Fin 512 → Entry) (r : ρ) : Paging ρ where
  dir i j := if (i : ℕ) = 510 then topEntry (img.pageTables + archPageSize * j)
    else ⟨false, false, false, 0⟩
  pointer i j := if (i : ℕ) = 510 then some (img.pageTables + archPageSize * j) else none
  table t k := if img.pageTables ≤ t ∧ t < img.pageTables + 512 * archPageSize
    then ⟨false, false, false, 0⟩ else leftover t k
  rest := r

/-- `kernel_address`. -/
def kernelAddress : ℕ := alignDown img.startAddr archPageSize

/-- `kernel_page_amount`. -/
def kernelPageAmount : ℕ :=
  (alignUp img.endAddr archPageSize + 2 ^ 64 - img.kernelAddress) % 2 ^ 64 / archPageSize

/-- What `LoadVirtualMemory` maps the kernel to. -/
def kernelPhys : ℕ := (img.kernelAddress + 2 ^ 64 - kernelVirtualBase) % 2 ^ 64

end Image

section LoadVirtualMemory

variable {ρ : Type} (img : Image)

/-- `LoadVirtualMemory()`.  `vmMarkPagesUsed` is `VM_MarkPagesUsed` of the kernel process. -/
def loadVirtualMemory (allocatePages : Paging ρ → Except Fault (ℕ × Paging ρ))
    (vmMarkPagesUsed : ρ → ℕ → ℕ → ρ) (leftover : ℕ → Fin 512 → Entry) (r : ρ) :
    Except Fault (TopEntries × Paging ρ) :=
  (mapVirtualAddress allocatePages img.kernelPageAmount (img.tables leftover r) img.kernelPhys
    img.kernelAddress (pageFlagPresent ||| pageFlagWritable)).map fun s ↦
      let r := vmMarkPagesUsed s.rest kernelVirtualBase (img.kernelPhys / archPageSize)
      (img.top, { s with rest := vmMarkPagesUsed r img.kernelAddress img.kernelPageAmount })

/-- The pages it maps. -/
def loadLog (A : PageSource ρ) (fuel : ℕ) (leftover : ℕ → Fin 512 → Entry) (r : ρ) : List Mapping :=
  mapLog (fun u ↦ allocatePagesWith A fuel u 1) (fun u ↦ allocLog A fuel u 1) img.kernelPageAmount
    (img.tables leftover r) img.kernelPhys img.kernelAddress (pageFlagPresent ||| pageFlagWritable)

/-- The pages of the kernel lie in the first GiB. -/
theorem Image.kernelAddress_bounds : kernelVirtualBase ≤ img.kernelAddress ∧
    img.kernelAddress + archPageSize * img.kernelPageAmount ≤ kernelVirtualBase + 2 ^ 30 := by
  have h1 := img.base_le
  have h2 := img.start_lt
  have h3 := img.end_le
  have hdown : kernelVirtualBase ≤ img.kernelAddress ∧ img.kernelAddress ≤ img.startAddr := by
    dsimp only [Image.kernelAddress, alignDown, archPageSize, kernelVirtualBase] at *
    omega
  have hup : img.startAddr ≤ alignUp img.endAddr archPageSize ∧
      alignUp img.endAddr archPageSize ≤ kernelVirtualBase + 2 ^ 30 := by
    dsimp only [alignUp, alignDown, archPageSize, kernelVirtualBase] at *
    omega
  rw [Image.kernelPageAmount]
  generalize img.kernelAddress = a at *
  generalize alignUp img.endAddr archPageSize = b at *
  dsimp only [archPageSize, kernelVirtualBase] at *
  omega

/-- The directory entries of the first GiB are in use. -/
theorem Image.tables_present (leftover : ℕ → Fin 512 → Entry) (r : ρ) (i j : Fin 512) :
    ((img.tables leftover r).dir i j).present = decide ((i : ℕ) = 510) := by
  rw [Image.tables]
  dsimp only
  split <;> rename_i hi <;> simp [hi, Image.topEntry]

/-- The pages of the kernel have their tables from the start. -/
theorem Image.vmGetPage_tables (leftover : ℕ → Fin 512 → Entry) (r : ρ) {v : ℕ}
    (hbase : kernelVirtualBase ≤ v) (hend : v < kernelVirtualBase + 2 ^ 30) :
    InKernel v ∧ vmGetPage (img.tables leftover r) v ≠ none := by
  have hv : InKernel v := by
    refine ⟨?_, ?_⟩ <;>
    · dsimp only [kernelVirtualBase, kernelAddrSpace] at *; omega
  have hpdpt : (pdptGetIndex v : ℕ) = 510 := by
    rw [pdptGetIndex, tableIndex_val]
    dsimp only [kernelVirtualBase] at *
    omega
  refine ⟨hv, ?_⟩
  rw [Ne, vmGetPage_eq_none hv, Image.tables]
  simp only [hpdpt, if_true]
  simp

variable (A : PageSource ρ) (vmMarkPagesUsed : ρ → ℕ → ℕ → ρ) (fuel : ℕ)
  (leftover : ℕ → Fin 512 → Entry) (r : ρ)

/-- **What `LoadVirtualMemory` does**: it writes entries for the pages of the kernel, in tables that
are there, and marks the pages up to its end. -/
theorem loadVirtualMemory_eq : ∃ s,
    loadVirtualMemory img (fun u ↦ allocatePagesWith A fuel u 1) vmMarkPagesUsed leftover r =
      .ok (img.top, s) ∧
    Writes (img.tables leftover r) (loadLog img A fuel leftover r) s ∧
    (∀ x ∈ loadLog img A fuel leftover r, x.flags = pageFlagPresent ||| pageFlagWritable) ∧
    s.pointer = (img.tables leftover r).pointer ∧ s.dir = (img.tables leftover r).dir ∧
    s.rest = vmMarkPagesUsed (vmMarkPagesUsed r kernelVirtualBase (img.kernelPhys / archPageSize))
      img.kernelAddress img.kernelPageAmount := by
  obtain ⟨hbase, hend⟩ := img.kernelAddress_bounds
  have hcall : ∃ u, mapVirtualAddress (fun u ↦ allocatePagesWith A fuel u 1) img.kernelPageAmount
      (img.tables leftover r) img.kernelPhys img.kernelAddress
      (pageFlagPresent ||| pageFlagWritable) = .ok u ∧
      u.pointer = (img.tables leftover r).pointer ∧ u.dir = (img.tables leftover r).dir ∧
      u.rest = (img.tables leftover r).rest := by
    refine mapVirtualAddress_of_tables (fun _ ↦ le_trans (by decide) hbase) ?_ fun k hk ↦ ?_
    · dsimp only [kernelVirtualBase, archPageSize] at *
      omega
    · refine (img.vmGetPage_tables leftover r (hbase.trans (Nat.le_add_right _ _)) ?_).2
      dsimp only [kernelVirtualBase, archPageSize] at *
      omega
  obtain ⟨u, hmap, hpointer, hdir, hrest⟩ := hcall
  have hv : img.kernelPageAmount ≠ 0 → InKernel img.kernelAddress := by
    intro hn
    exact (img.vmGetPage_tables leftover r hbase (by
      dsimp only [kernelVirtualBase, archPageSize] at *; omega)).1
  have hwrites := mapVirtualAddress_writes (allocatePagesWith_writes A fuel) hv hmap
  rw [loadVirtualMemory, hmap, Except.map]
  refine ⟨_, rfl, hwrites.setRest _, fun x hx ↦ ?_, hpointer, hdir, ?_⟩
  · rcases mapLog_pages (allocatePagesWith_writes A fuel) (allocLog_pages A fuel) hv hmap x hx with
      ⟨-, hflags⟩ | ⟨i, j, t, hnone, ht, -⟩
    · exact hflags
    · rw [hpointer, hnone] at ht
      simp at ht
  · rw [hrest]
    rfl

variable {img A vmMarkPagesUsed fuel leftover r}

theorem loadVirtualMemory_spec {top : TopEntries} {s : Paging ρ}
    (h : loadVirtualMemory img (fun u ↦ allocatePagesWith A fuel u 1) vmMarkPagesUsed leftover r =
      .ok (top, s)) :
    top = img.top ∧ Writes (img.tables leftover r) (loadLog img A fuel leftover r) s ∧
      (∀ x ∈ loadLog img A fuel leftover r, x.flags = pageFlagPresent ||| pageFlagWritable) ∧
      s.pointer = (img.tables leftover r).pointer ∧ s.dir = (img.tables leftover r).dir := by
  obtain ⟨s', hload, hwrites, hflags, hpointer, hdir, -⟩ :=
    loadVirtualMemory_eq img A vmMarkPagesUsed fuel leftover r
  rw [hload, Except.ok.injEq, Prod.mk.injEq] at h
  obtain ⟨rfl, rfl⟩ := h
  exact ⟨rfl, hwrites, hflags, hpointer, hdir⟩

end LoadVirtualMemory

/-! ### A kernel of 5 MiB -/

theorem kernelImage_base_le : kernelVirtualBase ≤ kernelVirtualBase + 0x100000 := by decide

theorem kernelImage_start_lt : kernelVirtualBase + 0x100000 < kernelVirtualBase + 0x600000 := by
  decide

theorem kernelImage_end_le : kernelVirtualBase + 0x600000 ≤ kernelVirtualBase + 2 ^ 30 := by decide

/-- A kernel of 5 MiB, linked to 1 MiB above the start of the region.  Its page tables are a part
of it. -/
def kernelImage : Image where
  pdpts := kernelVirtualBase + 0x101000
  pageTables := kernelVirtualBase + 0x200000
  pageDirs := kernelVirtualBase + 0x400000
  startAddr := kernelVirtualBase + 0x100000
  endAddr := kernelVirtualBase + 0x600000
  base_le := kernelImage_base_le
  start_lt := kernelImage_start_lt
  end_le := kernelImage_end_le

/-- `VM_MarkPagesUsed` of the kernel process. -/
def kernelMark (r : Allocators) (virt amount : ℕ) : Allocators :=
  { r with marks := vmMarkPagesUsed chunkStart r.marks virt amount }

/-- The bitmap once the kernel has been marked. -/
def kernelMarks : Words :=
  vmMarkPagesUsed chunkStart (vmMarkPagesUsed chunkStart (fun _ ↦ 0#64) kernelVirtualBase 256)
    (kernelVirtualBase + 0x100000) 1280

theorem markBit_kernelMarks (p : ℕ) : markBit kernelMarks p = true ↔ p < 1536 := by
  have h1 : vmMarkPagesUsed chunkStart (fun _ ↦ 0#64) kernelVirtualBase 256 =
      markPages chunkStart 256 (fun _ ↦ 0#64) 0 := (vmMarkPagesUsed_eq (le_refl _) (by decide)).1
  have h2 : vmMarkPagesUsed chunkStart (markPages chunkStart 256 (fun _ ↦ 0#64) 0)
      (kernelVirtualBase + 0x100000) 1280 =
      markPages chunkStart 1280 (markPages chunkStart 256 (fun _ ↦ 0#64) 0) 256 :=
    (vmMarkPagesUsed_eq (by decide) (by decide)).1
  have hzero : markBit (fun _ ↦ 0#64) p = false := by rw [markBit_eq, BitVec.getLsbD_zero]
  rw [kernelMarks, h1, h2, markPages_markBit (by decide), markPages_markBit (by decide), hzero]
  simp only [SetsMark, Bool.false_eq_true, false_or]
  constructor
  · rintro (⟨q, h⟩ | ⟨q, h⟩) <;> omega
  · intro hp
    -- a page sets its own bit, or the last page of the lower half sets it
    rcases Nat.lt_or_ge (p % 64) 31 with hlow | hhigh
    · rcases Nat.lt_or_ge p 256 with h | h
      · exact Or.inl ⟨p, by omega⟩
      · exact Or.inr ⟨p, by omega⟩
    · rcases Nat.lt_or_ge p 256 with h | h
      · exact Or.inl ⟨64 * (p / 64) + 31, by omega⟩
      · exact Or.inr ⟨64 * (p / 64) + 31, by omega⟩

/-- The words of that bitmap. -/
theorem kernelMarks_eq (w : ℕ) :
    kernelMarks w = if w < 24 then BitVec.allOnes 64 else 0#64 := by
  refine BitVec.eq_of_getLsbD_eq fun b hb ↦ ?_
  have hword := markBit_eq kernelMarks (64 * w + b)
  rw [show (64 * w + b) / 64 = w by omega, show (64 * w + b) % 64 = b by omega] at hword
  rw [← hword, Bool.eq_iff_iff, markBit_kernelMarks]
  split
  · simp only [BitVec.getLsbD_allOnes, hb, decide_true, iff_true]
    omega
  · simp only [BitVec.getLsbD_zero, Bool.false_eq_true, iff_false]
    omega

/-- The first page behind the kernel is handed out first. -/
theorem vmAllocatePages_kernelMarks : vmAllocatePages chunkStart kernelMarks 1 =
    (kernelVirtualBase + 0x600000, markPages chunkStart 1 kernelMarks 1536) := by
  refine vmAllocatePages_one (n := 24) (p := 1536) (by decide) (fun w hw ↦ ?_) (by decide)
    (by decide) (fun x _ hx ↦ by omega) ?_
  · rw [kernelMarks_eq, if_pos hw]
  · rw [Clear, kernelMarks_eq, if_neg (by decide), BitVec.zero_and]

/-- The machine once `LoadVirtualMemory` has returned, with one frame that is free. -/
structure Loaded (s : Machine) : Prop where
  /-- The first GiB has its tables. -/
  pointer : ∀ i j, s.pointer i j = if (i : ℕ) = 510
    then some (kernelVirtualBase + 0x200000 + archPageSize * j) else none
  /-- Its directory entries are the ones in use. -/
  present : ∀ i j, (s.dir i j).present = decide ((i : ℕ) = 510)
  /-- The pages of the kernel are marked. -/
  rest : s.rest = ⟨oneFrame, kernelMarks, 0, 0⟩

theorem loadVirtualMemory_kernelImage (leftover : ℕ → Fin 512 → Entry) : ∃ s,
    loadVirtualMemory kernelImage (fun u ↦ allocatePagesWith kernelSource 1 u 1) kernelMark leftover
      ⟨oneFrame, fun _ ↦ 0#64, 0, 0⟩ = .ok (kernelImage.top, s) ∧ Loaded s := by
  obtain ⟨s, hload, -, -, hpointer, hdir, hrest⟩ := loadVirtualMemory_eq kernelImage kernelSource
    kernelMark 1 leftover ⟨oneFrame, fun _ ↦ 0#64, 0, 0⟩
  refine ⟨s, hload, fun i j ↦ by rw [hpointer]; rfl, fun i j ↦ ?_, ?_⟩
  · rw [hdir, Image.tables_present]
  · rw [hrest, show kernelImage.kernelPhys / archPageSize = 256 from rfl,
      show kernelImage.kernelAddress = kernelVirtualBase + 0x100000 from rfl,
      show kernelImage.kernelPageAmount = 1280 from rfl, kernelMark, kernelMark, kernelMarks]

section Loaded

variable {s : Machine}

/-- The page that is supplied next has its table. -/
theorem Loaded.vmGetPage (h : Loaded s) : vmGetPage s (kernelVirtualBase + 0x600000) =
    some (kernelVirtualBase + 0x203000, 0) := by
  refine (vmGetPage_eq_some ⟨by decide, by decide⟩).mpr ⟨?_, by decide⟩
  rw [h.pointer, if_pos (by decide)]
  decide

/-- From there a page of the window can be mapped, and the next page behind the kernel becomes its
table. -/
theorem Loaded.mapVirtualAddress (h : Loaded s) (flags : ℕ) : ∃ s',
    mapVirtualAddress (fun u ↦ allocatePagesWith kernelSource 1 u 1) 1 s 0 kernelLow4gb flags =
      .ok s' ∧ s'.DistinctTables ∧
    ∀ i j, s'.pointer i j = if i = pdptGetIndex kernelLow4gb ∧ j = pdirGetIndex kernelLow4gb
      then some (kernelVirtualBase + 0x600000) else s.pointer i j := by
  have hlow : InKernel kernelLow4gb := ⟨by decide, by decide⟩
  have hget : CubikOS.vmGetPage s kernelLow4gb = none := by
    rw [vmGetPage_eq_none hlow, h.pointer, if_neg (by decide)]
  have habsent : (s.dir (pdptGetIndex kernelLow4gb) (pdirGetIndex kernelLow4gb)).present =
      false := by
    rw [h.present]
    decide
  have hmarks : s.rest.marks = kernelMarks := by rw [h.rest]
  have hvm := vmAllocatePages_kernelMarks
  rw [← hmarks] at hvm
  obtain ⟨u, hfind, hpointer⟩ := findEntry_oneFrame flags (by rw [h.rest]) hvm
    ⟨by decide, by decide⟩ h.vmGetPage hget habsent
  refine ⟨_, mapVirtualAddress_page hlow hfind, ?_, hpointer⟩
  refine distinct_of_install hpointer (fun i j i' j' t ht ht' ↦ ?_) fun i j ht ↦ ?_
  · rw [h.pointer] at ht ht'
    split at ht
    · split at ht'
      · rename_i hi hi'
        rw [Option.some.injEq] at ht ht'
        refine ⟨Fin.ext (hi.trans hi'.symm), Fin.ext ?_⟩
        dsimp only [archPageSize] at *
        omega
      · simp at ht'
    · simp at ht
  · rw [h.pointer] at ht
    split at ht
    · rw [Option.some.injEq] at ht
      dsimp only [archPageSize, kernelVirtualBase] at ht
      omega
    · simp at ht

end Loaded

/-! ## Which pages can be written -/

section Writable

variable {ρ : Type}

/-- What calls of `MapVirtualAddress` lead to from `start`, and the pages they have mapped.  The
ranges are the kernel's.  What is not a page table may change between the calls. -/
inductive MapRun (A : PageSource ρ) (start : Paging ρ) : Paging ρ → List Mapping → Prop
  | start : MapRun A start start []
  | call {s s' : Paging ρ} {log : List Mapping} (fuel n phys virt flags : ℕ) :
    MapRun A start s log → (n ≠ 0 → InKernel virt) →
    mapVirtualAddress (fun u ↦ allocatePagesWith A fuel u 1) n s phys virt flags = .ok s' →
    MapRun A start s' (log ++ mapLog (fun u ↦ allocatePagesWith A fuel u 1)
      (fun u ↦ allocLog A fuel u 1) n s phys virt flags)
  | rest {s : Paging ρ} {log : List Mapping} (r : ρ) :
    MapRun A start s log → MapRun A start { s with rest := r } log

/-- The processor lets the page be written: the entries of all four levels say so. -/
def EffectivelyWritable (top : TopEntries) (s : Paging ρ) (q : ℕ) : Prop :=
  top.pml4.writable = true ∧ (top.pdpt (pdptGetIndex q)).writable = true ∧
    (s.dir (pdptGetIndex q) (pdirGetIndex q)).writable = true ∧
    ∃ e, s.entry q = some e ∧ e.writable = true

/-- The mapping asks for a page that can be written. -/
def Mapping.AsksWritable (x : Mapping) : Prop := x.flags &&& pageFlagWritable ≠ 0

instance (x : Mapping) : Decidable x.AsksWritable := inferInstanceAs (Decidable (_ ≠ _))

/-- What is expected of the mappings: a page can be written exactly when its last mapping asked
for it. -/
def WriteAsAsked (top : TopEntries) (s : Paging ρ) (log : List Mapping) : Prop :=
  ∀ q x, InKernel q → lastOn (q / archPageSize) log = some x →
    (EffectivelyWritable top s q ↔ x.AsksWritable)

variable {A : PageSource ρ} {start s : Paging ρ} {log : List Mapping}

/-- A run writes what its calls write. -/
theorem MapRun.writes (h : MapRun A start s log) : Writes start log s := by
  induction h with
  | start => exact Writes.nil
  | call fuel n phys virt flags _ hv hcall ih =>
    exact ih.trans (mapVirtualAddress_writes (allocatePagesWith_writes A fuel) hv hcall)
  | rest r _ ih => exact ih.setRest r

theorem Mapping.entry_writable (x : Mapping) : x.entry.writable = true ↔ x.AsksWritable := by
  rw [Mapping.entry, mapEntry, Mapping.AsksWritable, decide_eq_true_iff]

variable {img : Image} {leftover : ℕ → Fin 512 → Entry} {r : ρ}

/-- What the directory entry of a page that was mapped says: in the first GiB that it can be
written, elsewhere what the first page mapped in its region asked for. -/
theorem Image.dir_writable (h : Writes (img.tables leftover r) log s) {x : Mapping} {i j : Fin 512}
    (hx : x ∈ log) (hreg : x.InRegion i j) : (s.dir i j).writable = true ↔
      (i : ℕ) = 510 ∨ ∃ y, firstIn i j log = some y ∧ y.AsksWritable := by
  cases h.region i j with
  | kept _ hdir hlog =>
    have hi : (i : ℕ) = 510 := by
      by_contra hi
      exact firstIn_eq_none.mp (hlog (if_neg hi)) x hx hreg
    rw [hdir, Image.tables]
    simp only [hi, if_true, true_or, iff_true]
    rfl
  | made hnone _ _ _ y hfirst _ hwritable _ =>
    have hi : ¬ (i : ℕ) = 510 := by
      intro hi
      rw [Image.tables] at hnone
      simp [hi] at hnone
    rw [hwritable, y.entry_writable, hfirst]
    simp [hi]

/-- **Which pages can be written**: those whose last mapping asked for it, and whose directory entry
was put in use by a mapping that asked for it or is one of the first GiB. -/
theorem effectivelyWritable_iff (h : Writes (img.tables leftover r) log s)
    (hd : s.DistinctTables) {q : ℕ} {x : Mapping} (hq : InKernel q)
    (hlast : lastOn (q / archPageSize) log = some x) :
    EffectivelyWritable img.top s q ↔ x.AsksWritable ∧
      ((pdptGetIndex q : ℕ) = 510 ∨
        ∃ y, firstIn (pdptGetIndex q) (pdirGetIndex q) log = some y ∧ y.AsksWritable) := by
  obtain ⟨hx, hpage⟩ := mem_of_lastOn hlast
  obtain ⟨h1, h2, -⟩ := index_congr hpage
  rw [EffectivelyWritable, h.entry_of_last hd hq hlast, Image.dir_writable h hx ⟨h1, h2⟩]
  have htop : img.top.pml4.writable = true ∧
      (img.top.pdpt (pdptGetIndex q)).writable = true := ⟨rfl, rfl⟩
  simp only [htop.1, htop.2, true_and, Option.some.injEq, exists_eq_left', x.entry_writable]
  exact and_comm

/-- **When the pages can be written as asked**: outside the first GiB, if the last mapping of a page
asks for a page that can be written, so did the first mapping in its 2 MiB. -/
theorem mapRun_writeAsAsked_iff {vmMarkPagesUsed : ρ → ℕ → ℕ → ρ} {fuel : ℕ} {top : TopEntries}
    {s₀ : Paging ρ} (hload : loadVirtualMemory img (fun u ↦ allocatePagesWith A fuel u 1)
      vmMarkPagesUsed leftover r = .ok (top, s₀))
    (hrun : MapRun A s₀ s log) (hd : s.DistinctTables) :
    WriteAsAsked top s (loadLog img A fuel leftover r ++ log) ↔
      ∀ q x y, InKernel q → (pdptGetIndex q : ℕ) ≠ 510 →
        lastOn (q / archPageSize) (loadLog img A fuel leftover r ++ log) = some x →
        firstIn (pdptGetIndex q) (pdirGetIndex q) (loadLog img A fuel leftover r ++ log) = some y →
        x.AsksWritable → y.AsksWritable := by
  obtain ⟨rfl, hstart, -⟩ := loadVirtualMemory_spec hload
  have hwrites := hstart.trans hrun.writes
  generalize loadLog img A fuel leftover r ++ log = total at *
  constructor
  · intro h q x y hq hpdpt hlast hfirst hasks
    have heffective := (h q x hq hlast).mpr hasks
    rcases ((effectivelyWritable_iff hwrites hd hq hlast).mp heffective).2 with
      hfalse | ⟨y', hy', hasks'⟩
    · exact absurd hfalse hpdpt
    · rw [hfirst, Option.some.injEq] at hy'
      exact hy' ▸ hasks'
  · intro h q x hq hlast
    rw [effectivelyWritable_iff hwrites hd hq hlast, and_iff_left_iff_imp]
    intro hasks
    by_cases hpdpt : (pdptGetIndex q : ℕ) = 510
    · exact Or.inl hpdpt
    · -- the page itself is one that was mapped in its region
      obtain ⟨hx, hpage⟩ := mem_of_lastOn hlast
      obtain ⟨h1, h2, -⟩ := index_congr hpage
      obtain ⟨y, hy⟩ := Option.ne_none_iff_exists'.mp fun hnone ↦
        firstIn_eq_none.mp hnone x hx ⟨h1, h2⟩
      exact Or.inr ⟨y, hy, h q x y hq hpdpt hlast hy hasks⟩

end Writable

/-- Mapping the first page of the window, to be written, after the start. -/
theorem mapRun_writeAsAsked_iff_window : ∃ s₀ s log,
    loadVirtualMemory kernelImage (fun u ↦ allocatePagesWith kernelSource 1 u 1) kernelMark
      (fun _ _ ↦ ⟨false, false, false, 0⟩) ⟨oneFrame, fun _ ↦ 0#64, 0, 0⟩ =
      .ok (kernelImage.top, s₀) ∧
    MapRun kernelSource s₀ s log ∧ log ≠ [] ∧
    WriteAsAsked kernelImage.top s (loadLog kernelImage kernelSource 1
      (fun _ _ ↦ ⟨false, false, false, 0⟩) ⟨oneFrame, fun _ ↦ 0#64, 0, 0⟩ ++ log) := by
  obtain ⟨s₀, hload, hloaded⟩ := loadVirtualMemory_kernelImage fun _ _ ↦ ⟨false, false, false, 0⟩
  obtain ⟨s, hmap, hd, hpointer⟩ := hloaded.mapVirtualAddress 3
  have hrun := MapRun.start.call 1 1 0 kernelLow4gb 3 (fun _ ↦ ⟨by decide, by decide⟩) hmap
  have hwithin : ∀ (u : Machine), ∀ x ∈ allocLog kernelSource 1 u 1,
      x.flags &&& pageFlagWritable ≠ 0 := by
    intro u x hx
    rw [allocLog_flags kernelSource 1 u 1 x hx]
    decide
  refine ⟨s₀, s, _, hload, hrun, ?_, (mapRun_writeAsAsked_iff hload hrun hd).mpr ?_⟩
  · intro hnil
    have hwrites := hrun.writes
    rw [hnil] at hwrites
    cases hwrites.region (pdptGetIndex kernelLow4gb) (pdirGetIndex kernelLow4gb) with
    | kept hsame =>
      rw [hpointer, if_pos ⟨rfl, rfl⟩, hloaded.pointer, if_neg (by decide)] at hsame
      simp at hsame
    | made _ _ _ _ x hfirst => simp [firstIn] at hfirst
  · intro q x y _ _ _ hfirst _
    have hy := List.mem_of_find?_eq_some hfirst
    rcases List.mem_append.mp hy with hy | hy
    · exact mapLog_flags (P := fun flags ↦ flags &&& pageFlagWritable ≠ 0) hwithin (by decide) y hy
    · exact mapLog_flags (P := fun flags ↦ flags &&& pageFlagWritable ≠ 0) hwithin (by decide) y hy


/-- The directory entry of the window is put in use by the first page that is mapped there. -/
theorem Loaded.dir_writable {s s' : Machine} (h : Loaded s) {flags : ℕ}
    (hmap : CubikOS.mapVirtualAddress (fun u ↦ allocatePagesWith kernelSource 1 u 1) 1 s 0
      kernelLow4gb flags = .ok s')
    (hpointer : ∀ i j, s'.pointer i j = if i = pdptGetIndex kernelLow4gb ∧
      j = pdirGetIndex kernelLow4gb then some (kernelVirtualBase + 0x600000) else s.pointer i j) :
    (s'.dir (pdptGetIndex kernelLow4gb) (pdirGetIndex kernelLow4gb)).writable =
      (flags &&& pageFlagWritable ≠ 0 : Bool) := by
  have hv : 1 ≠ 0 → InKernel kernelLow4gb := fun _ ↦ ⟨by decide, by decide⟩
  have hwrites := mapVirtualAddress_writes (allocatePagesWith_writes kernelSource 1) hv hmap
  cases hwrites.region (pdptGetIndex kernelLow4gb) (pdirGetIndex kernelLow4gb) with
  | kept hsame =>
    rw [hpointer, if_pos ⟨rfl, rfl⟩, h.pointer, if_neg (by decide)] at hsame
    simp at hsame
  | made _ _ _ _ y hfirst _ hwritable _ =>
    have hreg := List.find?_some hfirst
    rw [decide_eq_true_iff] at hreg
    rcases mapLog_pages (allocatePagesWith_writes kernelSource 1) (allocLog_pages kernelSource 1) hv
      hmap y (List.mem_of_find?_eq_some hfirst) with ⟨-, hflags⟩ | ⟨i, j, t, hnone, ht, hpage⟩
    · rw [hwritable, Mapping.entry, mapEntry, hflags]
    · -- the page of the new table lies in the first GiB
      rw [hpointer] at ht
      split at ht
      · rw [Option.some.injEq] at ht
        rw [← ht] at hpage
        have hindex := (index_congr (a := kernelVirtualBase + 0x600000) (b := y.virt) hpage).1
        rw [hreg.1] at hindex
        exact absurd hindex (by decide)
      · rw [hnone] at ht
        simp at ht

/-- **A page that asks to be written and is not**: the first page of the window is mapped to be
read, the second to be written. -/
theorem mapRun_not_writable : ∃ s₀ s log,
    loadVirtualMemory kernelImage (fun u ↦ allocatePagesWith kernelSource 1 u 1) kernelMark
      (fun _ _ ↦ ⟨false, false, false, 0⟩) ⟨oneFrame, fun _ ↦ 0#64, 0, 0⟩ =
      .ok (kernelImage.top, s₀) ∧
    MapRun kernelSource s₀ s log ∧ s.DistinctTables ∧
    lastOn ((kernelLow4gb + archPageSize) / archPageSize) log =
      some ⟨kernelLow4gb + archPageSize, archPageSize, 3⟩ ∧
    ¬ EffectivelyWritable kernelImage.top s (kernelLow4gb + archPageSize) ∧
    ¬ WriteAsAsked kernelImage.top s (loadLog kernelImage kernelSource 1
      (fun _ _ ↦ ⟨false, false, false, 0⟩) ⟨oneFrame, fun _ ↦ 0#64, 0, 0⟩ ++ log) := by
  obtain ⟨s₀, hload, hloaded⟩ := loadVirtualMemory_kernelImage fun _ _ ↦ ⟨false, false, false, 0⟩
  obtain ⟨s₁, hmap, hd, hpointer⟩ := hloaded.mapVirtualAddress 1
  have hlow : InKernel kernelLow4gb := ⟨by decide, by decide⟩
  have hnext : InKernel (kernelLow4gb + archPageSize) := ⟨by decide, by decide⟩
  -- the second page has the table of the first
  have hget : vmGetPage s₁ (kernelLow4gb + archPageSize) =
      some (kernelVirtualBase + 0x600000, pageGetIndex (kernelLow4gb + archPageSize)) :=
    (vmGetPage_eq_some hnext).mpr ⟨by rw [hpointer, if_pos (by decide)], rfl⟩
  have hfind : findEntry (fun u ↦ allocatePagesWith kernelSource 1 u 1) s₁
      (kernelLow4gb + archPageSize) 3 =
        .ok ((kernelVirtualBase + 0x600000, pageGetIndex (kernelLow4gb + archPageSize)), s₁) := by
    rw [findEntry, hget]
  have hlog : mapLog (fun u ↦ allocatePagesWith kernelSource 1 u 1)
      (fun u ↦ allocLog kernelSource 1 u 1) 1 s₁ archPageSize (kernelLow4gb + archPageSize) 3 =
        [⟨kernelLow4gb + archPageSize, archPageSize, 3⟩] := by
    rw [mapLog, hfind, findLog, hget]
    rfl
  have hfirst := MapRun.start.call 1 1 0 kernelLow4gb 1 (fun _ ↦ hlow) hmap
  have hrun := hfirst.call 1 1 archPageSize (kernelLow4gb + archPageSize) 3 (fun _ ↦ hnext)
    (mapVirtualAddress_page hnext hfind)
  rw [hlog] at hrun
  have hlast : ∀ log, lastOn ((kernelLow4gb + archPageSize) / archPageSize)
      (log ++ [⟨kernelLow4gb + archPageSize, archPageSize, 3⟩]) =
        some ⟨kernelLow4gb + archPageSize, archPageSize, 3⟩ := by
    intro log
    rw [lastOn_append, lastOn_cons]
    rfl
  have hnot : ∀ page e, ¬ EffectivelyWritable kernelImage.top (s₁.setEntry page e)
      (kernelLow4gb + archPageSize) := by
    rintro page e ⟨-, -, hdir, -⟩
    have hfalse := hloaded.dir_writable hmap hpointer
    rw [show pdptGetIndex (kernelLow4gb + archPageSize) = pdptGetIndex kernelLow4gb by decide,
      show pdirGetIndex (kernelLow4gb + archPageSize) = pdirGetIndex kernelLow4gb by decide] at hdir
    exact absurd (hfalse.symm.trans hdir) (by decide)
  refine ⟨s₀, _, _, hload, hrun, hd, hlast _, hnot _ _, fun h ↦ ?_⟩
  rw [List.nil_append, ← List.append_assoc] at h
  exact hnot _ _ ((h _ _ hnext (hlast _)).mpr (by decide))

/-! ## Which pages are the kernel's own -/

section Supervisor

variable {ρ : Type}

/-- What `k` calls of `AllocatePages(kernel, _)` lead to from `start`. -/
inductive AllocRun (A : PageSource ρ) (start : Paging ρ) : Paging ρ → ℕ → Prop
  | start : AllocRun A start start 0
  | call {s s' : Paging ρ} {k virt : ℕ} (fuel amount : ℕ) :
    AllocRun A start s k → allocatePagesWith A fuel s amount = .ok (virt, s') →
    AllocRun A start s' (k + 1)

/-- What is expected of the kernel's page tables: nothing they lead to may be used outside the
kernel. -/
def SupervisorOnly (s : Paging ρ) : Prop :=
  (∀ i j, (s.dir i j).usr = false) ∧
    ∀ i j t k, s.pointer i j = some t → (s.table t k).usr = false

variable {img : Image} {A : PageSource ρ} {vmMarkPagesUsed : ρ → ℕ → ℕ → ρ} {fuel : ℕ}
  {leftover : ℕ → Fin 512 → Entry} {r : ρ} {top : TopEntries} {s₀ s : Paging ρ}

/-- The tables that are there from the start are empty. -/
theorem Image.tables_table {i j : Fin 512} {t : ℕ}
    (h : (img.tables leftover r).pointer i j = some t) (k : Fin 512) :
    (img.tables leftover r).table t k = ⟨false, false, false, 0⟩ := by
  rw [Image.tables] at h ⊢
  dsimp only at h ⊢
  split at h
  · rw [Option.some.injEq] at h
    have hj := j.isLt
    rw [if_pos (by dsimp only [archPageSize] at *; omega)]
  · simp at h

/-- `LoadVirtualMemory` leaves the pages to the kernel. -/
theorem supervisorOnly_of_load (h : loadVirtualMemory img (fun u ↦ allocatePagesWith A fuel u 1)
      vmMarkPagesUsed leftover r = .ok (top, s₀)) : SupervisorOnly s₀ := by
  obtain ⟨-, hwrites, hflags, hpointer, hdir⟩ := loadVirtualMemory_spec h
  refine ⟨fun i j ↦ ?_, fun i j t k ht ↦ ?_⟩
  · rw [hdir, Image.tables]
    dsimp only
    split <;> rfl
  · rw [hpointer] at ht
    refine hwrites.entries (P := fun e ↦ e.usr = false) (fun x hx ↦ ?_) ?_
    · rw [Mapping.entry, hflags x hx]
      rfl
    · rw [Image.tables_table ht]

/-- A call leaves a page that everyone may use. -/
theorem not_supervisorOnly_of_call {s' : Paging ρ} {amount virt : ℕ}
    (h : allocatePagesWith A fuel s amount = .ok (virt, s')) : ¬ SupervisorOnly s' := by
  obtain ⟨fuel', phys, r, r', u, -, hpm, -, hmap, -, hlog⟩ := allocatePagesWith_ok h
  have hnil : allocLog A fuel s amount ≠ [] := by
    rw [hlog]
    exact mapLog_ne_nil (pageSizeAlign_ne_zero hpm) hmap
  have husr : ∀ x ∈ allocLog A fuel s amount, x.entry.usr = true := by
    intro x hx
    rw [Mapping.entry, allocLog_flags A fuel s amount x hx]
    rfl
  obtain ⟨i, j, t, k, ht, hentry⟩ :=
    (allocatePagesWith_spec h).1.exists_entry (P := fun e ↦ e.usr = true) husr hnil
  intro honly
  rw [honly.2 i j t k ht] at hentry
  simp at hentry

/-- **When the pages are the kernel's own**: until the first call of `AllocatePages` has returned,
and never after. -/
theorem allocRun_supervisorOnly_iff {k : ℕ} (hload : loadVirtualMemory img
      (fun u ↦ allocatePagesWith A fuel u 1) vmMarkPagesUsed leftover r = .ok (top, s₀))
    (hrun : AllocRun A s₀ s k) : SupervisorOnly s ↔ k = 0 := by
  cases hrun with
  | start => exact iff_of_true (supervisorOnly_of_load hload) rfl
  | call fuel amount _ hcall =>
    exact iff_of_false (not_supervisorOnly_of_call hcall) (Nat.succ_ne_zero _)

end Supervisor

/-- The start of a kernel of 5 MiB. -/
theorem allocRun_supervisorOnly_iff_start : ∃ s₀,
    loadVirtualMemory kernelImage (fun u ↦ allocatePagesWith kernelSource 1 u 1) kernelMark
      (fun _ _ ↦ ⟨true, true, true, 7⟩) ⟨oneFrame, fun _ ↦ 0#64, 0, 0⟩ =
      .ok (kernelImage.top, s₀) ∧ SupervisorOnly s₀ := by
  obtain ⟨s₀, hload, -⟩ := loadVirtualMemory_kernelImage fun _ _ ↦ ⟨true, true, true, 7⟩
  exact ⟨s₀, hload, (allocRun_supervisorOnly_iff hload AllocRun.start).mpr rfl⟩

/-- **A page of the kernel for everyone**: the first page that `AllocatePages` supplies. -/
theorem allocRun_user_page : ∃ s₀ s virt e,
    loadVirtualMemory kernelImage (fun u ↦ allocatePagesWith kernelSource 1 u 1) kernelMark
      (fun _ _ ↦ ⟨false, false, false, 0⟩) ⟨oneFrame, fun _ ↦ 0#64, 0, 0⟩ =
      .ok (kernelImage.top, s₀) ∧
    allocatePagesWith kernelSource 1 s₀ 1 = .ok (virt, s) ∧ AllocRun kernelSource s₀ s 1 ∧
    s.entry virt = some e ∧ e.usr = true ∧ ¬ SupervisorOnly s := by
  obtain ⟨s₀, hload, hloaded⟩ := loadVirtualMemory_kernelImage fun _ _ ↦ ⟨false, false, false, 0⟩
  have hmarks : s₀.rest.marks = kernelMarks := by rw [hloaded.rest]
  have hvm := vmAllocatePages_kernelMarks
  rw [← hmarks] at hvm
  obtain ⟨r, hcall⟩ := allocatePagesWith_oneFrame 0 (by rw [hloaded.rest]) hvm
    ⟨by decide, by decide⟩ hloaded.vmGetPage
  exact ⟨s₀, _, _, mapEntry pageMaxSize kernelFlags, hload, hcall, AllocRun.start.call 1 1 hcall,
    entry_setEntry_self hloaded.vmGetPage, rfl, not_supervisorOnly_of_call hcall⟩

end CubikOS

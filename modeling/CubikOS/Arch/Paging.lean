import CubikOS.Mm.Page

/-!
# Page tables

The functions of `Kernel/arch/x86_64/paging.c` that read and write the kernel's page tables:
`MapVirtualAddress`, `VM_GetPage`, `IsPagePresent` and `ConvertVirtToPhys`.

The kernel owns the topmost entry of the PML4, 512 GiB of addresses.  `kernelPageDirs` holds the
directory entries the processor reads, and `kernelPageTablePointers` where the kernel itself finds
the table of each directory entry.  A table is modelled by its virtual address, which is what the
pointers hold, and its contents by a function of that address.

`MapVirtualAddress` asks `AllocatePages(kernel, 1)` for the page a missing table goes to, which
maps that page by calling `MapVirtualAddress` again.  The function is a parameter here, and
`rest` is what it keeps besides the page tables.  The argument `map` is left out: the kernel half
of each function does not look at it.
-/

set_option autoImplicit false

namespace CubikOS

/-! ## Addresses -/

/-- `KERNEL_ADDR_SPACE`: the first address under the topmost entry of the PML4. -/
abbrev kernelAddrSpace : ℕ := 0xFFFFFF8000000000

/-- The nine bits of `addr` from bit `shift` on. -/
def tableIndex (shift addr : ℕ) : Fin 512 :=
  ⟨addr >>> shift &&& 0x1FF, lt_of_le_of_lt Nat.and_le_right (by decide)⟩

/-- `PML4_GET_INDEX`. -/
def pml4GetIndex (addr : ℕ) : Fin 512 := tableIndex 39 addr

/-- `PDPT_GET_INDEX`. -/
def pdptGetIndex (addr : ℕ) : Fin 512 := tableIndex 30 addr

/-- `PDIR_GET_INDEX`. -/
def pdirGetIndex (addr : ℕ) : Fin 512 := tableIndex 21 addr

/-- `PAGE_GET_INDEX`. -/
def pageGetIndex (addr : ℕ) : Fin 512 := tableIndex 12 addr

/-- `PAGE_FLAG_PRESENT`. -/
abbrev pageFlagPresent : ℕ := 1

/-- `PAGE_FLAG_WRITABLE`. -/
abbrev pageFlagWritable : ℕ := 2

/-- `PAGE_FLAG_USER`. -/
abbrev pageFlagUser : ℕ := 4

/-! ## The state -/

/-- What the kernel uses of a `pd_entry_t` or a `page_t`. -/
structure Entry where
  /-- The entry is in use. -/
  present : Bool
  /-- What it leads to may be written. -/
  writable : Bool
  /-- What it leads to may be used outside the kernel. -/
  usr : Bool
  /-- The number of the frame it leads to, 36 bits wide. -/
  addr : ℕ
deriving DecidableEq

/-- The kernel's page tables. -/
structure Paging (ρ : Type) where
  /-- `kernelPageDirs[pdptIndex].entries[pdirIndex]`. -/
  dir : Fin 512 → Fin 512 → Entry
  /-- `kernelPageTablePointers[pdptIndex][pdirIndex]`. -/
  pointer : Fin 512 → Fin 512 → Option ℕ
  /-- The entries of the table at an address. -/
  table : ℕ → Fin 512 → Entry
  /-- Everything else. -/
  rest : ρ

/-- Where an entry of a table is: the table and the index. -/
abbrev EntryRef := ℕ × Fin 512

namespace Paging

variable {ρ : Type}

/-- Replace a directory entry. -/
def setDir (s : Paging ρ) (i j : Fin 512) (e : Entry) : Paging ρ :=
  { s with dir := Function.update s.dir i (Function.update (s.dir i) j e) }

/-- Replace a table pointer. -/
def setPointer (s : Paging ρ) (i j : Fin 512) (t : Option ℕ) : Paging ρ :=
  { s with pointer := Function.update s.pointer i (Function.update (s.pointer i) j t) }

/-- Replace an entry of a table. -/
def setEntry (s : Paging ρ) (r : EntryRef) (e : Entry) : Paging ρ :=
  { s with table := Function.update s.table r.1 (Function.update (s.table r.1) r.2 e) }

end Paging

/-! ## The functions -/

section Functions

variable {ρ : Type}

/-- `VM_GetPage(map, addr)`. -/
def vmGetPage (s : Paging ρ) (addr : ℕ) : Option EntryRef :=
  if pml4GetIndex addr = 511 then
    match s.pointer (pdptGetIndex addr) (pdirGetIndex addr) with
    | some table => some (table, pageGetIndex addr)
    | none => none
  else none

/-- `IsPagePresent(map, addr)`.  Outside the kernel's half the function ends without a value. -/
def isPagePresent (s : Paging ρ) (addr : ℕ) : Option Bool :=
  if pml4GetIndex addr = 511 then
    match vmGetPage s addr with
    | some page => some (s.table page.1 page.2).present
    | none => some false
  else none

/-- `ConvertVirtToPhys(map, addr)`, with the number of the frame read as a 64-bit integer. -/
def convertVirtToPhys (s : Paging ρ) (addr : ℕ) : ℕ :=
  if pml4GetIndex addr = 511 then
    match s.pointer (pdptGetIndex addr) (pdirGetIndex addr) with
    | some table =>
      ((s.table table (pageGetIndex addr)).addr * archPageSize + (addr &&& 0xFFF)) % 2 ^ 64
    | none => addr
  else addr

/-- `ConvertVirtToPhys(map, addr)` with the product taken in the 36 bits of the field, which is what
a compiler makes of it that gives a bit-field a type of its own width. -/
def convertVirtToPhysNarrow (s : Paging ρ) (addr : ℕ) : ℕ :=
  if pml4GetIndex addr = 511 then
    match s.pointer (pdptGetIndex addr) (pdirGetIndex addr) with
    | some table =>
      ((s.table table (pageGetIndex addr)).addr * archPageSize % 2 ^ 36 + (addr &&& 0xFFF)) % 2 ^ 64
    | none => addr
  else addr

/-- What a table pointer of value `t` points to. -/
def asPointer (t : ℕ) : Option ℕ := if t = 0 then none else some t

/-- The entry `MapVirtualAddress` writes: `present`, with the flags asked for and the frame at
`phys`. -/
def mapEntry (phys flags : ℕ) : Entry where
  present := true
  writable := flags &&& pageFlagWritable ≠ 0
  usr := flags &&& pageFlagUser ≠ 0
  addr := phys / archPageSize % 2 ^ 36

variable (allocatePages : Paging ρ → Except Fault (ℕ × Paging ρ))

/-- The part of `MapVirtualAddress` that finds the entry for `virt`, making a table for it if it
has none. -/
def findEntry (s : Paging ρ) (virt flags : ℕ) : Except Fault (EntryRef × Paging ρ) :=
  let i := pdptGetIndex virt
  let j := pdirGetIndex virt
  match vmGetPage s virt with
  | some page => .ok (page, s)
  | none =>
    if !(s.dir i j).present then
      let s := s.setDir i j { s.dir i j with
        present := true
        writable := flags &&& pageFlagWritable ≠ 0
        usr := flags &&& pageFlagUser ≠ 0 }
      match allocatePages s with
      | .error f => .error f
      | .ok (pageTable, s) =>
        let s := s.setDir i j { s.dir i j with
          addr := convertVirtToPhys s pageTable / archPageSize % 2 ^ 36 }
        let s := s.setPointer i j (asPointer pageTable)
        match asPointer pageTable with
        | some pageTable => .ok ((pageTable, pageGetIndex virt), s)
        | none => .error .nullDereference
    else
      match s.pointer i j with
      | some pageTable => .ok ((pageTable, pageGetIndex virt), s)
      | none => .error .nullDereference

/-- `MapVirtualAddress(map, phys, virt, amount, flags)`. -/
def mapVirtualAddress : ℕ → Paging ρ → ℕ → ℕ → ℕ → Except Fault (Paging ρ)
  | 0, s, _, _, _ => .ok s
  | amount + 1, s, phys, virt, flags =>
    if pml4GetIndex virt = 511 then
      match findEntry allocatePages s virt flags with
      | .error f => .error f
      | .ok (page, s) =>
        mapVirtualAddress amount (s.setEntry page (mapEntry phys flags))
          ((phys + archPageSize) % 2 ^ 64) ((virt + archPageSize) % 2 ^ 64) flags
    else .error .halt

end Functions

/-! ## Which entry belongs to an address -/

/-- The topmost entry of the PML4, which the tables of the kernel hang from. -/
abbrev topmost : Fin 512 := 511

/-- The address lies under the topmost entry of the PML4. -/
def InKernel (addr : ℕ) : Prop := kernelAddrSpace ≤ addr ∧ addr < 2 ^ 64

theorem tableIndex_val (shift addr : ℕ) : (tableIndex shift addr : ℕ) = addr / 2 ^ shift % 512 := by
  rw [← Nat.shiftRight_eq_div_pow]
  exact Nat.and_two_pow_sub_one_eq_mod _ 9

theorem tableIndex_eq_iff {shift a b : ℕ} :
    tableIndex shift a = tableIndex shift b ↔ a / 2 ^ shift % 512 = b / 2 ^ shift % 512 := by
  rw [← Fin.val_inj, tableIndex_val, tableIndex_val]

theorem InKernel.pml4GetIndex {a : ℕ} (ha : InKernel a) : pml4GetIndex a = 511 := by
  obtain ⟨h1, h2⟩ := ha
  rw [CubikOS.pml4GetIndex, ← Fin.val_inj, tableIndex_val]
  dsimp only [kernelAddrSpace] at *
  omega

/-- The addresses of one page have the same three indices. -/
theorem index_congr {a b : ℕ} (h : a / archPageSize = b / archPageSize) :
    pdptGetIndex a = pdptGetIndex b ∧ pdirGetIndex a = pdirGetIndex b ∧
      pageGetIndex a = pageGetIndex b := by
  simp only [pdptGetIndex, pdirGetIndex, pageGetIndex, tableIndex_eq_iff]
  dsimp only [archPageSize] at *
  omega

/-- **Within the kernel's 512 GiB the three indices determine the page.** -/
theorem index_inj {a b : ℕ} (ha : InKernel a) (hb : InKernel b)
    (h1 : pdptGetIndex a = pdptGetIndex b) (h2 : pdirGetIndex a = pdirGetIndex b)
    (h3 : pageGetIndex a = pageGetIndex b) : a / archPageSize = b / archPageSize := by
  obtain ⟨ha1, ha2⟩ := ha
  obtain ⟨hb1, hb2⟩ := hb
  simp only [pdptGetIndex, pdirGetIndex, pageGetIndex, tableIndex_eq_iff] at h1 h2 h3
  dsimp only [archPageSize, kernelAddrSpace] at *
  omega

namespace Paging

variable {ρ : Type}

/-- The entry that belongs to an address, if the address has a table. -/
def entry (s : Paging ρ) (addr : ℕ) : Option Entry :=
  (vmGetPage s addr).map fun r ↦ s.table r.1 r.2

/-- Different directory entries have different tables. -/
def DistinctTables (s : Paging ρ) : Prop :=
  ∀ i j i' j' t, s.pointer i j = some t → s.pointer i' j' = some t → i = i' ∧ j = j'

/-- Every directory entry in use has a table. -/
def Complete (s : Paging ρ) : Prop := ∀ i j, (s.dir i j).present = true → s.pointer i j ≠ none

end Paging

section Entries

variable {ρ : Type} {s : Paging ρ} {a b : ℕ}

theorem vmGetPage_eq_some {r : EntryRef} (ha : InKernel a) : vmGetPage s a = some r ↔
    s.pointer (pdptGetIndex a) (pdirGetIndex a) = some r.1 ∧ r.2 = pageGetIndex a := by
  obtain ⟨t, i⟩ := r
  rw [vmGetPage, if_pos ha.pml4GetIndex]
  split
  · rename_i t' ht
    simp [ht, eq_comm]
  · rename_i ht
    simp [ht]

theorem vmGetPage_congr (h : a / archPageSize = b / archPageSize) (ha : InKernel a)
    (hb : InKernel b) : vmGetPage s a = vmGetPage s b := by
  obtain ⟨h1, h2, h3⟩ := index_congr h
  rw [vmGetPage, vmGetPage, ha.pml4GetIndex, hb.pml4GetIndex, h1, h2, h3]

theorem entry_congr (h : a / archPageSize = b / archPageSize) (ha : InKernel a)
    (hb : InKernel b) : s.entry a = s.entry b := by
  rw [Paging.entry, Paging.entry, vmGetPage_congr h ha hb]

theorem vmGetPage_setEntry (r : EntryRef) (e : Entry) (b : ℕ) :
    vmGetPage (s.setEntry r e) b = vmGetPage s b := rfl

theorem setEntry_table (r : EntryRef) (e : Entry) (t : ℕ) (i : Fin 512) :
    (s.setEntry r e).table t i = if t = r.1 ∧ i = r.2 then e else s.table t i := by
  rw [Paging.setEntry]
  simp only [Function.update_apply]
  by_cases ht : t = r.1
  · subst ht; simp [Function.update_apply]
  · simp [ht]

theorem entry_setEntry_self {r : EntryRef} {e : Entry} (ha : vmGetPage s a = some r) :
    (s.setEntry r e).entry a = some e := by
  rw [Paging.entry, vmGetPage_setEntry, ha, Option.map_some, setEntry_table, if_pos ⟨rfl, rfl⟩]

/-- **Writing the entry of one page changes that of no other.** -/
theorem entry_setEntry_of_ne (hd : s.DistinctTables) {r : EntryRef} {e : Entry} (ha : InKernel a)
    (hb : InKernel b) (hr : vmGetPage s a = some r) (hab : a / archPageSize ≠ b / archPageSize) :
    (s.setEntry r e).entry b = s.entry b := by
  rw [Paging.entry, Paging.entry, vmGetPage_setEntry]
  rcases hb' : vmGetPage s b with _ | r'
  · rfl
  · have hne : r' ≠ r := by
      rintro rfl
      obtain ⟨h1, h2⟩ := (vmGetPage_eq_some ha).mp hr
      obtain ⟨h3, h4⟩ := (vmGetPage_eq_some hb).mp hb'
      obtain ⟨h5, h6⟩ := hd _ _ _ _ _ h1 h3
      exact hab (index_inj ha hb h5 h6 (h2.symm.trans h4))
    rw [Option.map_some, Option.map_some, setEntry_table,
      if_neg fun ⟨h1, h2⟩ ↦ hne (Prod.ext h1 h2)]

theorem isPagePresent_of_entry {e : Entry} (ha : InKernel a) (he : s.entry a = some e) :
    isPagePresent s a = some e.present := by
  rw [Paging.entry] at he
  rw [isPagePresent, if_pos ha.pml4GetIndex]
  rcases hr : vmGetPage s a with _ | r
  · simp [hr] at he
  · rw [hr, Option.map_some, Option.some.injEq] at he
    rw [← he]

theorem convertVirtToPhys_of_entry {e : Entry} (ha : InKernel a) (he : s.entry a = some e) :
    convertVirtToPhys s a = (e.addr * archPageSize + a % archPageSize) % 2 ^ 64 := by
  rw [Paging.entry] at he
  rcases hr : vmGetPage s a with _ | r
  · simp [hr] at he
  · rw [hr, Option.map_some, Option.some.injEq] at he
    obtain ⟨h1, h2⟩ := (vmGetPage_eq_some ha).mp hr
    rw [convertVirtToPhys, if_pos ha.pml4GetIndex, h1, ← he, h2]
    simp only
    rw [show a &&& 0xFFF = a % archPageSize from Nat.and_two_pow_sub_one_eq_mod _ 12]

/-- What the two readers make of an entry `MapVirtualAddress` has written. -/
theorem translate_of_mapEntry {phys flags : ℕ} (ha : InKernel a)
    (he : s.entry a = some (mapEntry phys flags)) (hal : archPageSize ∣ phys)
    (hphys : phys < 2 ^ 48) :
    isPagePresent s a = some true ∧ convertVirtToPhys s a = phys + a % archPageSize := by
  refine ⟨isPagePresent_of_entry ha he, ?_⟩
  obtain ⟨q, rfl⟩ := hal
  rw [convertVirtToPhys_of_entry ha he, mapEntry]
  dsimp only [archPageSize] at *
  omega

theorem entry_eq_of_pointer {s' : Paging ρ}
    (hp : s'.pointer (pdptGetIndex b) (pdirGetIndex b) =
      s.pointer (pdptGetIndex b) (pdirGetIndex b)) (ht : s'.table = s.table) :
    s'.entry b = s.entry b := by
  rw [Paging.entry, Paging.entry, vmGetPage, vmGetPage, hp, ht]

end Entries

/-! ## Mapping -/

/-- What `AllocatePages(kernel, 1)` does to the page tables when it comes up with the page at `t`:
no table is kept there yet, the page lies in a region that has a table and is none of `pages`, and
only the entry of the page itself is written. -/
structure Supplied {ρ : Type} (s s' : Paging ρ) (t : ℕ) (pages : Set ℕ) : Prop where
  /-- The page is the storage of no table. -/
  fresh : ∀ i j, s.pointer i j ≠ some t
  /-- It is a page of the kernel. -/
  kernel : InKernel t
  /-- It is not among the pages being mapped. -/
  outside : t / archPageSize ∉ pages
  /-- No directory entry changes. -/
  dir : s'.dir = s.dir
  /-- No table is made. -/
  pointer : s'.pointer = s.pointer
  /-- The entry of the page is written. -/
  table : ∃ r e, vmGetPage s t = some r ∧ s'.table = (s.setEntry r e).table

/-- Different directory entries have different tables, and those in use have one. -/
structure Paging.Ok {ρ : Type} (s : Paging ρ) : Prop where
  /-- No table is shared. -/
  distinct : s.DistinctTables
  /-- No table is missing. -/
  complete : s.Complete

section Mapping

variable {ρ : Type} {allocatePages : Paging ρ → Except Fault (ℕ × Paging ρ)} {s s' : Paging ρ}
  {pages : Set ℕ} {virt flags : ℕ}

theorem Supplied.entry {t b : ℕ} (h : Supplied s s' t pages) (hd : s.DistinctTables)
    (hb : InKernel b) (hmem : b / archPageSize ∈ pages) : s'.entry b = s.entry b := by
  obtain ⟨r, e, hr, htable⟩ := h.table
  have hne : t / archPageSize ≠ b / archPageSize := fun heq ↦ h.outside (heq ▸ hmem)
  rw [← entry_setEntry_of_ne (e := e) hd h.kernel hb hr hne]
  exact entry_eq_of_pointer (by rw [h.pointer]; rfl) htable

theorem setPointer_pointer (i j i' j' : Fin 512) (t : Option ℕ) :
    (s.setPointer i j t).pointer i' j' = if i' = i ∧ j' = j then t else s.pointer i' j' := by
  rw [Paging.setPointer]
  simp only [Function.update_apply]
  by_cases hi : i' = i
  · subst hi; simp [Function.update_apply]
  · simp [hi]

theorem setDir_dir (i j i' j' : Fin 512) (e : Entry) :
    (s.setDir i j e).dir i' j' = if i' = i ∧ j' = j then e else s.dir i' j' := by
  rw [Paging.setDir]
  simp only [Function.update_apply]
  by_cases hi : i' = i
  · subst hi; simp [Function.update_apply]
  · simp [hi]

/-- An address without an entry is one whose directory entry is not in use. -/
theorem Paging.Ok.absent (hok : s.Ok) (hv : InKernel virt) (hget : vmGetPage s virt = none) :
    s.pointer (pdptGetIndex virt) (pdirGetIndex virt) = none ∧
      (s.dir (pdptGetIndex virt) (pdirGetIndex virt)).present = false := by
  have hnone : s.pointer (pdptGetIndex virt) (pdirGetIndex virt) = none := by
    by_contra hcon
    obtain ⟨t, ht⟩ := Option.ne_none_iff_exists'.mp hcon
    have := (vmGetPage_eq_some (r := (t, pageGetIndex virt)) hv).mpr ⟨ht, rfl⟩
    rw [hget] at this
    simp at this
  refine ⟨hnone, ?_⟩
  by_contra hcon
  exact hok.complete _ _ (by simpa using hcon) hnone

/-- Making the table `t` for a directory entry that has none. -/
theorem Paging.Ok.install (hok : s.Ok) {u u' : Paging ρ} {t : ℕ} {i j : Fin 512}
    (hu : Supplied u u' t pages) (hup : u.pointer = s.pointer) (hut : u.table = s.table)
    (hnone : s.pointer i j = none)
    (hpointer : ∀ i' j', s'.pointer i' j' = if i' = i ∧ j' = j then some t else s.pointer i' j')
    (hdir : ∀ i' j', ¬ (i' = i ∧ j' = j) → s'.dir i' j' = s.dir i' j')
    (htable : s'.table = u'.table) :
    s'.Ok ∧
      ∀ b, InKernel b → b / archPageSize ∈ pages → s.entry b ≠ none → s'.entry b = s.entry b := by
  have hfresh : ∀ i' j', s.pointer i' j' ≠ some t := by rw [← hup]; exact hu.fresh
  refine ⟨⟨fun i₁ j₁ i₂ j₂ t' h1 h2 ↦ ?_, fun i' j' hpresent ↦ ?_⟩, fun b hb hmem hentry ↦ ?_⟩
  · rw [hpointer] at h1 h2
    split at h1 <;> split at h2
    · rename_i hc hc'
      exact ⟨hc.1.trans hc'.1.symm, hc.2.trans hc'.2.symm⟩
    · exact absurd (h2.trans h1.symm) (hfresh _ _)
    · exact absurd (h1.trans h2.symm) (hfresh _ _)
    · exact hok.distinct _ _ _ _ _ h1 h2
  · rw [hpointer]
    split
    · simp
    · rename_i hc
      rw [hdir i' j' hc] at hpresent
      exact hok.complete i' j' hpresent
  · -- an address that has an entry has a table, so it is not the one the table is made for
    have hne : ¬ (pdptGetIndex b = i ∧ pdirGetIndex b = j) := by
      rintro ⟨rfl, rfl⟩
      apply hentry
      rw [Paging.entry, vmGetPage, hnone]
      simp
    have hd : u.DistinctTables := by rw [Paging.DistinctTables, hup]; exact hok.distinct
    calc s'.entry b = u'.entry b :=
          entry_eq_of_pointer (by rw [hpointer, if_neg hne, hu.pointer, hup]) htable
      _ = u.entry b := hu.entry hd hb hmem
      _ = s.entry b := entry_eq_of_pointer (by rw [hup]) hut

/-- **Finding the entry for an address**: the entry found is the one `VM_GetPage` finds from now
on, and no other of the pages being mapped loses its entry. -/
theorem findEntry_spec (hok : s.Ok) (hv : InKernel virt)
    (hsupply : ∀ u t u', u.DistinctTables → allocatePages u = .ok (t, u') → Supplied u u' t pages)
    {r : EntryRef} (hrun : findEntry allocatePages s virt flags = .ok (r, s')) :
    s'.Ok ∧ vmGetPage s' virt = some r ∧
      ∀ b, InKernel b → b / archPageSize ∈ pages → s.entry b ≠ none → s'.entry b = s.entry b := by
  rw [findEntry] at hrun
  rcases hget : vmGetPage s virt with _ | page
  · obtain ⟨hnone, habsent⟩ := hok.absent hv hget
    simp only [hget, habsent, Bool.not_false, if_true] at hrun
    generalize hu : s.setDir _ _ _ = u at hrun
    have hd : u.DistinctTables := by rw [← hu]; exact hok.distinct
    split at hrun
    · simp at hrun
    rename_i t u' halloc
    have hsup := hsupply u t u' hd halloc
    have ht0 : t ≠ 0 := by
      rintro rfl
      exact absurd hsup.kernel.1 (by decide)
    simp only [asPointer, ht0, if_false, Except.ok.injEq, Prod.mk.injEq] at hrun
    obtain ⟨rfl, hs'⟩ := hrun
    have hpointer : ∀ i j, s'.pointer i j =
        if i = pdptGetIndex virt ∧ j = pdirGetIndex virt then some t else s.pointer i j := by
      intro i j
      rw [← hs', setPointer_pointer]
      simp only [Paging.setDir, hsup.pointer]
      rw [← hu]; rfl
    have hdir : ∀ i j, ¬ (i = pdptGetIndex virt ∧ j = pdirGetIndex virt) →
        s'.dir i j = s.dir i j := by
      intro i j hne
      rw [← hs', Paging.setPointer]
      simp only [setDir_dir, if_neg hne]
      rw [hsup.dir, ← hu, setDir_dir, if_neg hne]
    obtain ⟨hok', hframe⟩ := hok.install hsup (by rw [← hu]; rfl) (by rw [← hu]; rfl) hnone
      hpointer hdir (by rw [← hs']; rfl)
    refine ⟨hok', (vmGetPage_eq_some hv).mpr ⟨?_, rfl⟩, hframe⟩
    rw [hpointer, if_pos ⟨rfl, rfl⟩]
  · simp only [hget, Except.ok.injEq, Prod.mk.injEq] at hrun
    obtain ⟨rfl, rfl⟩ := hrun
    exact ⟨hok, hget, fun b _ _ _ ↦ rfl⟩

/-- Finding the entry fails only when no page for a table is to be had. -/
theorem findEntry_error (hok : s.Ok) (hv : InKernel virt)
    (hsupply : ∀ u t u', u.DistinctTables → allocatePages u = .ok (t, u') → Supplied u u' t pages)
    {f : Fault} (hrun : findEntry allocatePages s virt flags = .error f) :
    ∃ u, allocatePages u = .error f := by
  rw [findEntry] at hrun
  rcases hget : vmGetPage s virt with _ | page
  · obtain ⟨-, habsent⟩ := hok.absent hv hget
    simp only [hget, habsent, Bool.not_false, if_true] at hrun
    generalize hu : s.setDir _ _ _ = u at hrun
    have hd : u.DistinctTables := by rw [← hu]; exact hok.distinct
    split at hrun
    · rename_i f' halloc
      rw [Except.error.injEq] at hrun
      exact ⟨u, hrun ▸ halloc⟩
    · rename_i t u' halloc
      have ht0 : t ≠ 0 := by
        rintro rfl
        exact absurd (hsupply u 0 u' hd halloc).kernel.1 (by decide)
      simp [asPointer, ht0] at hrun
  · simp [hget] at hrun

theorem Paging.Ok.setEntry (hok : s.Ok) (r : EntryRef) (e : Entry) : (s.setEntry r e).Ok :=
  ⟨hok.distinct, hok.complete⟩

/-- The next page's address, unless this was the last one below `2 ^ 64`. -/
theorem add_page_mod {n a : ℕ} (h : a + (n + 1) * archPageSize ≤ 2 ^ 64) (hn : n ≠ 0) :
    (a + archPageSize) % 2 ^ 64 = a + archPageSize := by
  refine Nat.mod_eq_of_lt ?_
  dsimp only [archPageSize] at *; omega

/-- **What a call that returns has mapped.**  Each page of the range has an entry for its frame,
and the other pages of `pages` keep theirs. -/
theorem mapVirtualAddress_spec {n phys : ℕ} (hok : s.Ok) (hal : archPageSize ∣ virt)
    (hlow : n ≠ 0 → kernelAddrSpace ≤ virt) (hhigh : virt + n * archPageSize ≤ 2 ^ 64)
    (hphys : phys + n * archPageSize ≤ 2 ^ 64)
    (hpages : ∀ k, k < n → virt / archPageSize + k ∈ pages)
    (hsupply : ∀ u t u', u.DistinctTables → allocatePages u = .ok (t, u') → Supplied u u' t pages)
    (hrun : mapVirtualAddress allocatePages n s phys virt flags = .ok s') :
    s'.Ok ∧
    (∀ k, k < n → s'.entry (virt + archPageSize * k) =
      some (mapEntry (phys + archPageSize * k) flags)) ∧
    ∀ b, InKernel b → b / archPageSize ∈ pages → (∀ k, k < n → b / archPageSize ≠
      virt / archPageSize + k) → s.entry b ≠ none → s'.entry b = s.entry b := by
  induction n generalizing s phys virt with
  | zero =>
    rw [mapVirtualAddress, Except.ok.injEq] at hrun
    subst hrun
    exact ⟨hok, fun k hk ↦ absurd hk (Nat.not_lt_zero k), fun b _ _ _ _ ↦ rfl⟩
  | succ n ih =>
    have hv : InKernel virt := ⟨hlow (Nat.succ_ne_zero n), by
      dsimp only [archPageSize] at *; omega⟩
    rw [mapVirtualAddress, if_pos hv.pml4GetIndex] at hrun
    split at hrun
    · simp at hrun
    rename_i r u hfind
    obtain ⟨hok', hget, hframe⟩ := findEntry_spec hok hv hsupply hfind
    have hself := entry_setEntry_self (e := mapEntry phys flags) hget
    have hother : ∀ b, InKernel b → b / archPageSize ≠ virt / archPageSize →
        (u.setEntry r (mapEntry phys flags)).entry b = u.entry b := fun b hb hne ↦
      entry_setEntry_of_ne hok'.distinct hv hb hget hne.symm
    have hdiv : (virt + archPageSize) / archPageSize = virt / archPageSize + 1 :=
      Nat.add_div_right _ (by decide)
    -- the address of the next page wraps around only when there is none
    have hvirt := fun hn ↦ add_page_mod (n := n) (a := virt) hhigh hn
    have hframe' := fun hn ↦ add_page_mod (n := n) (a := phys) hphys hn
    have hlow' : n ≠ 0 → kernelAddrSpace ≤ (virt + archPageSize) % 2 ^ 64 := by
      intro hn
      rw [hvirt hn]
      exact hv.1.trans (Nat.le_add_right _ _)
    have hbound : ∀ a, a + (n + 1) * archPageSize ≤ 2 ^ 64 →
        (a + archPageSize) % 2 ^ 64 + n * archPageSize ≤ 2 ^ 64 := by
      intro a ha
      have := Nat.mod_le (a + archPageSize) (2 ^ 64)
      rw [Nat.succ_mul] at ha
      omega
    have hpage : ∀ k, k < n → (virt + archPageSize) % 2 ^ 64 / archPageSize + k =
        virt / archPageSize + (k + 1) := by
      intro k hk
      rw [hvirt (by omega), hdiv]; omega
    obtain ⟨h1, h2, h3⟩ := ih (hok'.setEntry r _)
      ((Nat.dvd_mod_iff (by decide)).mpr (Nat.dvd_add hal (dvd_refl _))) hlow' (hbound virt hhigh)
      (hbound phys hphys) (fun k hk ↦ by rw [hpage k hk]; exact hpages (k + 1) (by omega)) hrun
    refine ⟨h1, fun k hk ↦ ?_, fun b hb hmem hne hentry ↦ ?_⟩
    · rcases k with _ | k
      · rw [Nat.mul_zero, Nat.add_zero, Nat.add_zero, h3 virt hv (hpages 0 (by omega))
          (fun k hk ↦ by rw [hpage k hk]; omega) (by rw [hself]; simp), hself]
      · have hk' : k < n := by omega
        have hentry := h2 k hk'
        rw [hvirt (by omega), hframe' (by omega)] at hentry
        rw [Nat.mul_succ, Nat.add_comm _ archPageSize, ← Nat.add_assoc, ← Nat.add_assoc]
        exact hentry
    · have hne0 : b / archPageSize ≠ virt / archPageSize := by simpa using hne 0 (by omega)
      have hstep : (u.setEntry r (mapEntry phys flags)).entry b = s.entry b := by
        rw [hother b hb hne0, hframe b hb hmem hentry]
      rw [h3 b hb hmem (fun k hk ↦ by rw [hpage k hk]; exact hne (k + 1) (by omega))
        (by rw [hstep]; exact hentry), hstep]

/-- The call fails only when no page for a table is to be had. -/
theorem mapVirtualAddress_error {n phys : ℕ} (hok : s.Ok)
    (hlow : n ≠ 0 → kernelAddrSpace ≤ virt) (hhigh : virt + n * archPageSize ≤ 2 ^ 64)
    (hsupply : ∀ u t u', u.DistinctTables → allocatePages u = .ok (t, u') → Supplied u u' t pages)
    {f : Fault} (hrun : mapVirtualAddress allocatePages n s phys virt flags = .error f) :
    ∃ u, allocatePages u = .error f := by
  induction n generalizing s phys virt with
  | zero => simp [mapVirtualAddress] at hrun
  | succ n ih =>
    have hv : InKernel virt := ⟨hlow (Nat.succ_ne_zero n), by
      dsimp only [archPageSize] at *; omega⟩
    rw [mapVirtualAddress, if_pos hv.pml4GetIndex] at hrun
    split at hrun
    · rename_i f' hfind
      rw [Except.error.injEq] at hrun
      exact findEntry_error hok hv hsupply (hrun ▸ hfind)
    · rename_i r u hfind
      obtain ⟨hok', -, -⟩ := findEntry_spec hok hv hsupply hfind
      refine ih (hok'.setEntry r _) (fun hn ↦ ?_) ?_ hrun
      · rw [add_page_mod hhigh hn]
        exact hv.1.trans (Nat.le_add_right _ _)
      · have := Nat.mod_le (virt + archPageSize) (2 ^ 64)
        rw [Nat.succ_mul] at hhigh
        omega

/-- The numbers of the `n` pages from `virt` on. -/
def pagesOf (virt n : ℕ) : Set ℕ := {p | ∃ k, k < n ∧ p = virt / archPageSize + k}

/-- **Mapping, then translating.**  A call on a range of the kernel's 512 GiB fails only if a table
is missing and no page is to be had for it.  Otherwise every address of the range is present
afterwards and translates to the address at the same distance from `phys`. -/
theorem mapVirtualAddress_translates {n phys : ℕ} (hok : s.Ok) (hal : archPageSize ∣ virt)
    (hlow : kernelAddrSpace ≤ virt) (hhigh : virt + n * archPageSize ≤ 2 ^ 64)
    (hpal : archPageSize ∣ phys) (hphys : phys + n * archPageSize ≤ 2 ^ 48)
    (hsupply : ∀ u t u', u.DistinctTables → allocatePages u = .ok (t, u') →
      Supplied u u' t (pagesOf virt n)) :
    (∀ f, mapVirtualAddress allocatePages n s phys virt flags = .error f →
      ∃ u, allocatePages u = .error f) ∧
    ∀ s', mapVirtualAddress allocatePages n s phys virt flags = .ok s' →
      ∀ k, k < n → ∀ o, o < archPageSize →
        isPagePresent s' (virt + archPageSize * k + o) = some true ∧
        convertVirtToPhys s' (virt + archPageSize * k + o) = phys + archPageSize * k + o := by
  refine ⟨fun f hrun ↦ mapVirtualAddress_error hok (fun _ ↦ hlow) hhigh hsupply hrun,
    fun s' hrun k hk o ho ↦ ?_⟩
  have hpages : ∀ k, k < n → virt / archPageSize + k ∈ pagesOf virt n := fun k hk ↦ ⟨k, hk, rfl⟩
  obtain ⟨-, hentry, -⟩ := mapVirtualAddress_spec hok hal (fun _ ↦ hlow) hhigh
    (hphys.trans (by decide)) hpages hsupply hrun
  have hin : InKernel (virt + archPageSize * k) := by
    refine ⟨by omega, ?_⟩
    dsimp only [archPageSize] at *; omega
  have hin' : InKernel (virt + archPageSize * k + o) := by
    refine ⟨by omega, ?_⟩
    dsimp only [archPageSize] at *; omega
  obtain ⟨v, rfl⟩ := hal
  have hpage : (archPageSize * v + archPageSize * k + o) / archPageSize =
      (archPageSize * v + archPageSize * k) / archPageSize := by
    dsimp only [archPageSize] at *; omega
  have he := hentry k hk
  rw [← entry_congr hpage hin' hin] at he
  obtain ⟨hpresent, hconvert⟩ := translate_of_mapEntry hin' he
    (Nat.dvd_add hpal (Nat.dvd_mul_right _ _)) (by dsimp only [archPageSize] at *; omega)
  refine ⟨hpresent, ?_⟩
  rw [hconvert]
  dsimp only [archPageSize] at *; omega

/-- The call returns when no table is missing, and writes nothing but entries of tables. -/
theorem mapVirtualAddress_of_tables {n phys : ℕ} (hlow : n ≠ 0 → kernelAddrSpace ≤ virt)
    (hhigh : virt + n * archPageSize ≤ 2 ^ 64)
    (htables : ∀ k, k < n → vmGetPage s (virt + archPageSize * k) ≠ none) :
    ∃ s', mapVirtualAddress allocatePages n s phys virt flags = .ok s' ∧
      s'.pointer = s.pointer ∧ s'.dir = s.dir ∧ s'.rest = s.rest := by
  induction n generalizing s phys virt with
  | zero => exact ⟨s, rfl, rfl, rfl, rfl⟩
  | succ n ih =>
    have hv : InKernel virt := ⟨hlow (Nat.succ_ne_zero n), by
      dsimp only [archPageSize] at *; omega⟩
    obtain ⟨r, hr⟩ := Option.ne_none_iff_exists'.mp (htables 0 (by omega))
    rw [Nat.mul_zero, Nat.add_zero] at hr
    rw [mapVirtualAddress, if_pos hv.pml4GetIndex, findEntry, hr]
    refine ih (fun hn ↦ ?_) ?_ fun k hk ↦ ?_
    · rw [add_page_mod hhigh hn]
      exact hv.1.trans (Nat.le_add_right _ _)
    · have := Nat.mod_le (virt + archPageSize) (2 ^ 64)
      rw [Nat.succ_mul] at hhigh
      omega
    · rw [add_page_mod hhigh (by omega), vmGetPage_setEntry]
      have := htables (k + 1) (by omega)
      rwa [Nat.mul_succ, Nat.add_comm _ archPageSize, ← Nat.add_assoc] at this

/-- Mapping one page whose table is missing. -/
theorem mapVirtualAddress_one {phys t : ℕ} (hv : InKernel virt) (hget : vmGetPage s virt = none)
    (habsent : (s.dir (pdptGetIndex virt) (pdirGetIndex virt)).present = false)
    (halloc : ∀ u : Paging ρ, u.pointer = s.pointer → ∃ u', allocatePages u = .ok (t, u'))
    (ht : t ≠ 0) : ∃ s', mapVirtualAddress allocatePages 1 s phys virt flags = .ok s' := by
  rw [mapVirtualAddress, if_pos hv.pml4GetIndex, findEntry, hget]
  simp only [habsent, Bool.not_false, if_true]
  generalize hu : s.setDir _ _ _ = u
  obtain ⟨u', hu'⟩ := halloc u (by rw [← hu]; rfl)
  simp only [hu', asPointer, ht, if_false, mapVirtualAddress]
  exact ⟨_, rfl⟩

end Mapping

/-! ### The first page of the I/O window -/

/-- `KERNEL_LOW_4GB`, where the low 4 GiB are mapped. -/
abbrev kernelLow4gb : ℕ := 0xFFFFFF9300000000

/-- Page tables of which there is one, that of the first 2 MiB from `KERNEL_VIRTUAL_BASE` on. -/
def oneTable : Paging Unit where
  dir i j := ⟨decide (i = 510 ∧ j = 0), true, false, 0x200⟩
  pointer i j := if i = 510 ∧ j = 0 then some 0xFFFFFFFF80200000 else none
  table _ _ := ⟨false, false, false, 0⟩
  rest := ()

/-- The page at `0xFFFFFFFF80100000`, mapped to the frame at 2 MiB, if it is not in use. -/
def onePage (s : Paging Unit) : Except Fault (ℕ × Paging Unit) :=
  match vmGetPage s 0xFFFFFFFF80100000 with
  | none => .error .panic
  | some r =>
    if ∀ i j, s.pointer i j ≠ some 0xFFFFFFFF80100000 then
      .ok (0xFFFFFFFF80100000, s.setEntry r (mapEntry 0x200000 7))
    else .error .panic

theorem onePage_eq {s : Paging Unit} {r : EntryRef} (hr : vmGetPage s 0xFFFFFFFF80100000 = some r)
    (hfresh : ∀ i j, s.pointer i j ≠ some 0xFFFFFFFF80100000) :
    onePage s = .ok (0xFFFFFFFF80100000, s.setEntry r (mapEntry 0x200000 7)) := by
  simp only [onePage, hr, if_pos hfresh]

theorem supplied_onePage (u : Paging Unit) (t : ℕ) (u' : Paging Unit)
    (h : onePage u = .ok (t, u')) : Supplied u u' t (pagesOf kernelLow4gb 1) := by
  rw [onePage] at h
  split at h
  · simp at h
  rename_i r hr
  split at h
  · rename_i hfresh
    rw [Except.ok.injEq, Prod.mk.injEq] at h
    obtain ⟨rfl, rfl⟩ := h
    refine ⟨hfresh, ⟨by decide, by decide⟩, ?_, rfl, rfl, r, _, hr, rfl⟩
    rintro ⟨k, hk, heq⟩
    dsimp only [kernelLow4gb, archPageSize] at heq
    omega
  · simp at h

theorem ok_oneTable : oneTable.Ok := by
  refine ⟨fun i j i' j' t h1 h2 ↦ ?_, fun i j h ↦ ?_⟩
  · rw [oneTable] at h1 h2
    dsimp only at h1 h2
    split at h1
    · rename_i hc
      split at h2
      · rename_i hc'
        exact ⟨hc.1.trans hc'.1.symm, hc.2.trans hc'.2.symm⟩
      · simp at h2
    · simp at h1
  · have hc : i = 510 ∧ j = 0 := by simpa [oneTable] using h
    simp [oneTable, hc]

/-- The first page of the window has no table yet: one is made. -/
theorem mapVirtualAddress_translates_oneTable : ∃ s',
    mapVirtualAddress onePage 1 oneTable 0 kernelLow4gb 2 = .ok s' ∧
      isPagePresent s' (kernelLow4gb + 8) = some true ∧
      convertVirtToPhys s' (kernelLow4gb + 8) = 8 := by
  obtain ⟨s', hrun⟩ : ∃ s', mapVirtualAddress onePage 1 oneTable 0 kernelLow4gb 2 = .ok s' := by
    have hk : InKernel kernelLow4gb := ⟨by decide, by decide⟩
    have hget : vmGetPage oneTable kernelLow4gb = none := by decide
    have hfresh : ∀ i j, oneTable.pointer i j ≠ some 0xFFFFFFFF80100000 := by
      intro i j h
      rw [oneTable] at h
      dsimp only at h
      split at h <;> simp at h
    refine mapVirtualAddress_one (t := 0xFFFFFFFF80100000) hk hget (by decide)
      (fun s hsame ↦ ?_) (by decide)
    have hr : vmGetPage s 0xFFFFFFFF80100000 = some (0xFFFFFFFF80200000, 0x100) := by
      rw [vmGetPage, hsame]; decide
    exact ⟨_, onePage_eq hr (by rw [hsame]; exact hfresh)⟩
  exact ⟨s', hrun, (mapVirtualAddress_translates ok_oneTable (by decide) (by decide) (by decide)
    (by decide) (by decide) (fun u t u' _ h ↦ supplied_onePage u t u' h)).2 s' hrun 0 (by decide) 8
    (by decide)⟩

end CubikOS

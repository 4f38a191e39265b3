import CubikOS.Arch.Paging
import CubikOS.Arch.Stivale2

/-!
# The memory is counted

`MemoryInitialize` of `Kernel/src/mm/memory.c`.  It goes through the table that `ParseStivale2Info`
has filled six times, once for each type of entry in turn: free memory is handed to the page
allocator first, and the pages of the kernel are marked last.  The bytes are counted a second time
on the way, from the two ends of each range.

The calls that are made are listed in order, and return.  What is left out is `count`, which nobody
reads.

* `memoryLoop_eq` turns the two nested loops into one, over the entries in the order they are
  handled in.
* `memoryInitialize_accounts` says that each entry is handled once, in which order, and that the
  two counts agree.
-/

set_option autoImplicit false

namespace CubikOS

/-! ## The functions -/

/-- `struct mem_stats`, of 64-bit numbers. -/
structure MemStats where
  /-- `total`. -/
  total : ℕ
  /-- `available`. -/
  available : ℕ
  /-- `present`. -/
  present : ℕ
  /-- `swapped`. -/
  swapped : ℕ
  /-- `inuse`. -/
  inuse : ℕ
  /-- `standby`. -/
  standby : ℕ
  /-- `cached`. -/
  cached : ℕ
  /-- `allocated`. -/
  allocated : ℕ

/-- The calls that `MemoryInitialize` makes.  Where they take a process or a table it is the
kernel's. -/
inductive MemoryCall where
  | loadVirtualMemory
  | vmAllocatePages (amount : ℕ)
  | mapVirtualAddress (phys virt amount flags : ℕ)
  | setTBuffer (addr : ℕ)
  | vmSwitchPageTable
  | pmLoadZoneRange (range : Range)
  | pmMarkPagesUsed (range : Range)
  | kmInitialize

/-- What `MemoryInitialize` has done so far. -/
structure MemoryInit where
  /-- `mem_stats`. -/
  stats : MemStats
  /-- The calls, in order. -/
  calls : List MemoryCall
  /-- The indices of the entries that were not passed over, in order. -/
  handled : List ℕ

/-- The number of a type. -/
def MemoryMapEntryType.number : MemoryMapEntryType → ℕ
  | available => 0
  | reserved => 1
  | acpiReclaimable => 2
  | nvs => 3
  | badRam => 4
  | kernel => 5

/-- The bytes of a range, counted from its ends. -/
def Range.size (range : Range) : ℕ := (range.stop + (2 ^ 64 - range.start)) % 2 ^ 64

/-- The range `PM_MarkPagesUsed` is called with. -/
def Range.pages (range : Range) : Range where
  start := alignDown range.start archPageSize
  stop := alignUp range.stop archPageSize

/-- The `switch` over the type of an entry. -/
def MemoryInit.handle (s : MemoryInit) (entry : MemoryMapEntry) : MemoryInit :=
  match entry.type with
  | .available => { s with
      stats := { s.stats with available := (s.stats.available + entry.range.size) % 2 ^ 64 }
      calls := s.calls ++ [.pmLoadZoneRange entry.range] }
  | .kernel => { s with
      stats := { s.stats with
        allocated := (s.stats.allocated + entry.range.size) % 2 ^ 64
        inuse := (s.stats.inuse + entry.range.size) % 2 ^ 64 }
      calls := s.calls ++ [.pmMarkPagesUsed entry.range.pages] }
  | _ => s

/-- The body of the inner loop, for an entry that is not passed over. -/
def MemoryInit.visit (mem : BootMem) (s : MemoryInit) (idx : ℕ) : MemoryInit :=
  { s.handle (mem.entries idx) with handled := s.handled ++ [idx] }

/-- The two loops. -/
def memoryLoop (mem : BootMem) (s : MemoryInit) : MemoryInit :=
  (List.range 6).foldl (fun s type ↦
    (List.range mem.mapSize).foldl (fun s idx ↦
      if (mem.entries idx).type.number ≠ type then s else s.visit mem idx) s) s

/-- `MemoryInitialize()`.  `tAddr` is what `VM_AllocatePages` answers. -/
def memoryInitialize (tAddr : ℕ) (mem : BootMem) : MemoryInit :=
  let s := memoryLoop mem {
    stats := ⟨mem.totalSize, 0, 0, 0, 0, 0, 0, 0⟩
    calls := [.loadVirtualMemory, .vmAllocatePages 1,
      .mapVirtualAddress 0xb8000 tAddr 1 pageFlagWritable, .setTBuffer tAddr, .vmSwitchPageTable]
    handled := [] }
  { s with calls := s.calls ++
    [.mapVirtualAddress 0 kernelLow4gb 0x100000 (pageFlagPresent ||| pageFlagWritable),
      .kmInitialize] }

/-! ## One loop -/

/-- The entries, in the order they are handled in. -/
def handlingOrder (mem : BootMem) : List ℕ :=
  (List.range 6).flatMap fun type ↦
    (List.range mem.mapSize).filter fun idx ↦ (mem.entries idx).type.number = type

section Loop

variable (mem : BootMem) (s : MemoryInit) (l : List ℕ)

/-- **The two loops are one**, over the entries in the order they are handled in. -/
theorem memoryLoop_eq : memoryLoop mem s = (handlingOrder mem).foldl (MemoryInit.visit mem) s := by
  rw [handlingOrder, List.foldl_flatMap, memoryLoop]
  refine congrArg (fun f ↦ (List.range 6).foldl f s) ?_
  funext s type
  rw [List.foldl_filter]
  refine congrArg (fun f ↦ (List.range mem.mapSize).foldl f s) ?_
  funext s idx
  by_cases h : (mem.entries idx).type.number = type <;> simp [h]

theorem number_lt (type : MemoryMapEntryType) : type.number < 6 := by
  cases type <;> decide

/-- Each entry is handled once. -/
theorem handlingOrder_perm : (handlingOrder mem).Perm (List.range mem.mapSize) := by
  have hnodup : (handlingOrder mem).Nodup := by
    refine List.nodup_flatMap.mpr ⟨fun type _ ↦ List.nodup_range.filter _, ?_⟩
    refine List.nodup_range.imp_of_mem fun {a b} _ _ hab idx ha hb ↦ hab ?_
    have h1 := of_decide_eq_true (List.mem_filter.mp ha).2
    have h2 := of_decide_eq_true (List.mem_filter.mp hb).2
    rw [← h1, h2]
  refine (List.perm_ext_iff_of_nodup hnodup List.nodup_range).mpr fun idx ↦ ?_
  rw [handlingOrder, List.mem_flatMap]
  constructor
  · rintro ⟨type, -, hidx⟩
    exact (List.mem_filter.mp hidx).1
  · intro hidx
    exact ⟨_, List.mem_range.mpr (number_lt _), List.mem_filter.mpr ⟨hidx, decide_eq_true rfl⟩⟩

/-- The entries are handled by type. -/
theorem handlingOrder_sorted : (handlingOrder mem).Pairwise fun a b ↦
    (mem.entries a).type.number ≤ (mem.entries b).type.number := by
  refine List.pairwise_flatMap.mpr ⟨fun type _ ↦ ?_, ?_⟩
  · refine List.pairwise_of_forall_mem_list fun a ha b hb ↦ ?_
    have h1 := of_decide_eq_true (List.mem_filter.mp ha).2
    have h2 := of_decide_eq_true (List.mem_filter.mp hb).2
    omega
  · refine List.pairwise_lt_range.imp fun {a b} hab x hx y hy ↦ ?_
    have h1 := of_decide_eq_true (List.mem_filter.mp hx).2
    have h2 := of_decide_eq_true (List.mem_filter.mp hy).2
    omega

/-- The calls that are made for an entry. -/
def MemoryMapEntry.calls (entry : MemoryMapEntry) : List MemoryCall :=
  match entry.type with
  | .available => [.pmLoadZoneRange entry.range]
  | .kernel => [.pmMarkPagesUsed entry.range.pages]
  | _ => []

/-- The bytes of the entries of a type. -/
def bytesOf (type : MemoryMapEntryType) (entries : List MemoryMapEntry) : ℕ :=
  ((entries.filter fun entry ↦ entry.type = type).map fun entry ↦ entry.range.size).sum

theorem bytesOf_append_singleton (type : MemoryMapEntryType) (entries : List MemoryMapEntry)
    (entry : MemoryMapEntry) : bytesOf type (entries ++ [entry]) =
      bytesOf type entries + if entry.type = type then entry.range.size else 0 := by
  rw [bytesOf, List.filter_append, List.map_append, List.sum_append, bytesOf]
  by_cases h : entry.type = type <;> simp [h]

/-- **What the loop comes to**, over any list of entries. -/
theorem foldl_visit (havailable : s.stats.available = 0) (hinuse : s.stats.inuse = 0)
    (hallocated : s.stats.allocated = 0) :
    l.foldl (MemoryInit.visit mem) s = {
      stats := { s.stats with
        available := bytesOf .available (l.map mem.entries) % 2 ^ 64
        inuse := bytesOf .kernel (l.map mem.entries) % 2 ^ 64
        allocated := bytesOf .kernel (l.map mem.entries) % 2 ^ 64 }
      calls := s.calls ++ l.flatMap fun idx ↦ (mem.entries idx).calls
      handled := s.handled ++ l } := by
  induction l using List.reverseRecOn with
  | nil =>
    obtain ⟨⟨total, available, present, swapped, inuse, standby, cached, allocated⟩, calls,
      handled⟩ := s
    dsimp only at havailable hinuse hallocated
    simp [bytesOf, havailable, hinuse, hallocated]
  | append_singleton l idx ih =>
    rw [List.foldl_append, ih, List.map_append, List.map_singleton, List.flatMap_append,
      bytesOf_append_singleton, bytesOf_append_singleton, List.foldl_cons, List.foldl_nil,
      MemoryInit.visit, MemoryInit.handle.eq_def]
    rcases htype : (mem.entries idx).type <;>
      simp [htype, MemoryMapEntry.calls, List.append_assoc]

end Loop

/-! ## The two counts -/

/-- `STIVALE2_MMAP_USABLE`. -/
abbrev stivale2MmapUsable : ℕ := 1

/-- `STIVALE2_MMAP_KERNEL_AND_MODULES`. -/
abbrev stivale2MmapKernelAndModules : ℕ := 0x1001

/-- Free memory is not handed over once pages have been marked. -/
def MemoryCall.InOrder (a b : MemoryCall) : Prop :=
  ∀ r r', ¬ (a = .pmMarkPagesUsed r ∧ b = .pmLoadZoneRange r')

section Accounts

variable {e : Stivale2MmapEntry} {es : List Stivale2MmapEntry} {mem : BootMem}

theorem entryType_eq_available : e.entryType = .available ↔ e.type = stivale2MmapUsable := by
  rw [Stivale2MmapEntry.entryType]
  split <;> simp_all

theorem entryType_eq_kernel : e.entryType = .kernel ↔ e.type = stivale2MmapKernelAndModules := by
  rw [Stivale2MmapEntry.entryType]
  split <;> simp_all

/-- The bytes of a range are those of the entry it was recorded for, even if it wraps around. -/
theorem size_record (e : Stivale2MmapEntry) : e.record.range.size = e.length := by
  have hbase := e.base_lt
  have hlength := e.length_lt
  rw [Range.size, Stivale2MmapEntry.record]
  dsimp only
  omega

theorem bytesOf_record (type : MemoryMapEntryType) (es : List Stivale2MmapEntry) :
    bytesOf type (es.map Stivale2MmapEntry.record) = mmapLength (ofType type es) := by
  rw [bytesOf, List.filter_map, List.map_map, mmapLength, ofType]
  exact congrArg List.sum (List.map_congr_left fun e _ ↦ size_record e)

/-- The bytes of the entries of a type do not depend on the order. -/
theorem bytesOf_perm (type : MemoryMapEntryType) {l l' : List MemoryMapEntry} (h : l.Perm l') :
    bytesOf type l = bytesOf type l' :=
  ((h.filter _).map _).sum_eq

/-- The calls for the entries are in order, since the entries are. -/
theorem calls_inOrder (mem : BootMem) : ((handlingOrder mem).flatMap fun idx ↦
    (mem.entries idx).calls).Pairwise MemoryCall.InOrder := by
  refine List.pairwise_flatMap.mpr ⟨fun idx _ ↦ ?_, ?_⟩
  · rw [MemoryMapEntry.calls]
    split <;> simp
  · refine (handlingOrder_sorted mem).imp fun {a b} hab x hx y hy r r' ↦ ?_
    rintro ⟨rfl, rfl⟩
    have hkernel : (mem.entries a).type = .kernel := by
      rw [MemoryMapEntry.calls] at hx
      split at hx <;> simp_all
    have havailable : (mem.entries b).type = .available := by
      rw [MemoryMapEntry.calls] at hy
      split at hy <;> simp_all
    rw [hkernel, havailable] at hab
    exact absurd hab (by decide)

/-- **The memory is counted right.**  The boot loader passes up to 64 entries.  Each entry of the
table is handled once, all free memory is handed over before any page is marked, and the bytes that
are counted are those the boot loader has passed, modulo `2 ^ 64`. -/
theorem memoryInitialize_accounts (tAddr : ℕ) (tags : List Stivale2Tag)
    (hle : (mmapEntries tags).length ≤ memoryMapLimit) :
    ∃ info, parseStivale2Info .zeroed tags = .ok info ∧
      (memoryInitialize tAddr info.mem).handled.Perm (List.range info.mem.mapSize) ∧
      (memoryInitialize tAddr info.mem).calls.Pairwise MemoryCall.InOrder ∧
      (memoryInitialize tAddr info.mem).stats.available = info.mem.usable ∧
      info.mem.usable = mmapLength
        ((mmapEntries tags).filter fun e ↦ e.type = stivale2MmapUsable) % 2 ^ 64 ∧
      (memoryInitialize tAddr info.mem).stats.inuse =
        (memoryInitialize tAddr info.mem).stats.allocated ∧
      (memoryInitialize tAddr info.mem).stats.allocated = mmapLength
        ((mmapEntries tags).filter fun e ↦ e.type = stivale2MmapKernelAndModules) % 2 ^ 64 ∧
      (memoryInitialize tAddr info.mem).stats.total = mmapLength (mmapEntries tags) % 2 ^ 64 := by
  obtain ⟨info, hrun, hmem⟩ := parseStivale2Info_zeroed hle
  have hentries := map_add_zeroed (mmapEntries tags)
  rw [← hmem] at hentries
  have hbytes : ∀ type, bytesOf type ((handlingOrder info.mem).map info.mem.entries) =
      mmapLength (ofType type (mmapEntries tags)) := by
    intro type
    rw [bytesOf_perm type ((handlingOrder_perm info.mem).map _), hentries, bytesOf_record]
  have husable : info.mem.usable = mmapLength (ofType .available (mmapEntries tags)) % 2 ^ 64 := by
    rw [hmem, BootMem.add, show BootInfo.zeroed.mem.usable = 0 from rfl, Nat.zero_add]
  have htotal : info.mem.totalSize = mmapLength (mmapEntries tags) % 2 ^ 64 := by
    rw [hmem, BootMem.add, show BootInfo.zeroed.mem.totalSize = 0 from rfl, Nat.zero_add]
  have havailable : (mmapEntries tags).filter (fun e ↦ e.type = stivale2MmapUsable) =
      ofType .available (mmapEntries tags) :=
    List.filter_congr fun e _ ↦ decide_eq_decide.mpr entryType_eq_available.symm
  have hkernel : (mmapEntries tags).filter (fun e ↦ e.type = stivale2MmapKernelAndModules) =
      ofType .kernel (mmapEntries tags) :=
    List.filter_congr fun e _ ↦ decide_eq_decide.mpr entryType_eq_kernel.symm
  refine ⟨info, hrun, ?_⟩
  rw [memoryInitialize, memoryLoop_eq, foldl_visit _ _ _ rfl rfl rfl, hbytes, hbytes, havailable,
    hkernel]
  refine ⟨?_, ?_, husable.symm, husable, rfl, rfl, htotal⟩
  · exact handlingOrder_perm info.mem
  · -- what comes before marks nothing, and what comes behind hands nothing over
    refine List.pairwise_append.mpr ⟨List.pairwise_append.mpr ⟨?_, calls_inOrder info.mem, ?_⟩, ?_,
      ?_⟩
    · simp [MemoryCall.InOrder]
    · simp [MemoryCall.InOrder]
    · simp [MemoryCall.InOrder]
    · simp [MemoryCall.InOrder]

end Accounts

/-- The kernel at 2 MiB, and free memory behind it. -/
def kernelAndFree : Stivale2Tag where
  identifier := stivale2StructTagMemmapId
  memmap := [⟨0x200000, 0x200000, 0x1001, by decide, by decide⟩,
    ⟨0x400000, 0x7C00000, 1, by decide, by decide⟩]
  framebuffer := ⟨0, 0, 0, 0, 0⟩

/-- The two entries are counted. -/
theorem memoryInitialize_accounts_two : ∃ info,
    parseStivale2Info .zeroed [kernelAndFree] = .ok info ∧
    (memoryInitialize 0xFFFFFFFF80000000 info.mem).stats.available = 0x7C00000 ∧
    (memoryInitialize 0xFFFFFFFF80000000 info.mem).stats.allocated = 0x200000 ∧
    (memoryInitialize 0xFFFFFFFF80000000 info.mem).stats.total = 0x7E00000 := by
  obtain ⟨info, hrun, -, -, havailable, husable, -, hallocated, htotal⟩ :=
    memoryInitialize_accounts 0xFFFFFFFF80000000 [kernelAndFree] (by decide)
  exact ⟨info, hrun, havailable.trans husable, hallocated, htotal⟩

end CubikOS

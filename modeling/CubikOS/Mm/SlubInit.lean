import CubikOS.Mm.Slub
import CubikOS.Utils.List

/-!
# The caches at the start

`KM_Initialize` and `__slab_SetCache` of `Kernel/src/mm/slub.c`, over memory that holds anything.

Two variables are read before they are written.  The loop of `KM_Initialize` counts from what `idx`
happens to hold, and the block size of a cache is `blockSize[size]` where `size` is the variable
that is being initialised.  The page of a cache is not cleared, and `__slab_SetCache` does not write
all of it: `reserved` only when the size does not divide a page, and of the slab of a processor only
the list.

* `kmInitialize_right_iff` says what has to be left in memory for a cache to come out right.
* `kmInitialize_not_setUp` says that the caches never all do: `blockSize` has an entry more than
  `g_cachePointers`.
-/

set_option autoImplicit false

namespace CubikOS

open Intrusive

/-! ## The state -/

/-- `sizeof(struct Thread)`. -/
abbrev threadSize : ℕ := 432

/-- All of `blockSize`. -/
def blockSizeTable : List ℕ := List.ofFn blockSize ++ [threadSize]

/-- The number of its entries, `sizeof(blockSize) / 2`. -/
abbrev blockSizes : ℕ := 17

/-- `SLAB_MAX_BLOCK_ORDER`: the number of entries of `g_cachePointers`. -/
abbrev slabMaxBlockOrder : ℕ := 16

/-- `cpu_slab[cpu]`: pointers, 0 being null. -/
structure CpuSlab where
  /-- `freelist`. -/
  freelist : ℕ
  /-- `page`. -/
  page : ℕ
  /-- `partial.prev`. -/
  partialPrev : ℕ
  /-- `partial.next`. -/
  partialNext : ℕ
deriving DecidableEq

/-- What `__slab_SetCache` writes of a `struct KMemoryCache`, and what it should write.  The
`listnode` is kept with the links. -/
structure KMemoryCache where
  /-- `flags`. -/
  flags : ℕ
  /-- `size`, an `int`. -/
  size : ℤ
  /-- `reserved`, an `int`. -/
  reserved : ℤ
  /-- `cpu_slab`. -/
  cpuSlab : CpuIndex → CpuSlab
  /-- `node`. -/
  node : Fin 4 → ℕ

/-- What `KM_Initialize` reads and writes. -/
structure InitState where
  /-- What memory holds at an address, as a cache. -/
  cache : ℕ → KMemoryCache
  /-- `g_cacheList` on the left, the `listnode`s of the caches on the right. -/
  links : Heap (Unit ⊕ ℕ)
  /-- The pointers from `g_cachePointers` on.  The first 16 are the array's. -/
  pointers : ℕ → ℕ
  /-- The indices `g_cachePointers` was written at, the latest first. -/
  written : List ℕ

/-- What the code finds and has not written itself. -/
structure Leftovers where
  /-- The memory of the pages, as caches. -/
  cache : ℕ → KMemoryCache
  /-- The memory of the pages, as `listnode`s. -/
  link : ℕ → Link (Unit ⊕ ℕ)
  /-- What lies before and behind `blockSize`, where it can be read. -/
  beyond : ℤ → Option ℕ
  /-- `size` of `__slab_SetCache`, in each round. -/
  size : ℕ → ℤ
  /-- `idx` of `KM_Initialize`. -/
  idx : ℕ

/-! ## The functions -/

section Functions

variable (left : Leftovers)

/-- The static variables are 0, and the rest is what is left. -/
def Leftovers.state : InitState where
  cache := left.cache
  links
    | .inl _ => Link.null
    | .inr addr => left.link addr
  pointers _ := 0
  written := []

/-- `blockSize[i]`. -/
def Leftovers.blockSizeAt (i : ℤ) : Option ℕ :=
  if 0 ≤ i ∧ i < blockSizes then some (blockSizeTable.getD i.toNat 0) else left.beyond i

/-- The cache once `__slab_SetCache` has written it.  `addr` is where it lies. -/
def KMemoryCache.set (cache : KMemoryCache) (addr size flags : ℕ) : KMemoryCache where
  flags := flags
  size := size
  reserved := if archPageSize % size ≠ 0
    then ((archPageSize - archPageSize / size * size : ℕ) : ℤ) else cache.reserved
  cpuSlab cpu := { cache.cpuSlab cpu with freelist := 0 }
  node idx := addr + idx * 32

/-- `__slab_SetCache(cache, order, flags)`, its variable `size` holding `junk`. -/
def slabSetCache (junk : ℤ) (s : InitState) (cache order flags : ℕ) : Except Fault InitState :=
  if cache = 0 then .error .panic
  else match left.blockSizeAt junk with
    | none => .error .pageFault
    | some size =>
      if size = 0 then .error .divideError
      else .ok {
        cache := Function.update s.cache cache ((s.cache cache).set cache size flags)
        links := linkedListAppend s.links (some (.inl ())) (some (.inr cache))
        pointers := Function.update s.pointers order cache
        written := order :: s.written }

/-- The loop of `KM_Initialize`, `n` rounds of which are left.  `allocatePages idx` is what
`AllocatePages(kernel, 4)` answers in round `idx`. -/
def kmInitializeLoop (allocatePages : ℕ → ℕ) : ℕ → ℕ → InitState → Except Fault InitState
  | 0, _, s => .ok s
  | n + 1, idx, s =>
    match slabSetCache left (left.size idx) s (allocatePages idx) idx 0 with
    | .error f => .error f
    | .ok s => kmInitializeLoop allocatePages n (idx + 1) s

/-- `KM_Initialize()`. -/
def kmInitialize (allocatePages : ℕ → ℕ) : Except Fault InitState :=
  kmInitializeLoop left allocatePages (blockSizes - left.idx) left.idx left.state

end Functions

/-! ## What is expected -/

/-- A cache of blocks of `block` bytes, with nothing in it. -/
structure KMemoryCache.Right (cache : KMemoryCache) (block : ℕ) : Prop where
  /-- It has the size of the blocks. -/
  size : cache.size = block
  /-- `reserved` is what is left of a page, all of it if the block is larger. -/
  reserved : cache.reserved = (archPageSize % block : ℕ)
  /-- No processor has a slab. -/
  cpuSlab : ∀ cpu, cache.cpuSlab cpu = ⟨0, 0, 0, 0⟩

/-- What is expected of `KM_Initialize`. -/
structure InitState.SetUp (s : InitState) : Prop where
  /-- There is a cache for each block size. -/
  recorded : ∀ i, i < blockSizes →
    s.pointers i ≠ 0 ∧ (s.cache (s.pointers i)).Right (blockSizeTable.getD i 0)
  /-- No pointer is written outside the array. -/
  inside : ∀ i ∈ s.written, i < slabMaxBlockOrder
  /-- Each of the caches is on the list, once. -/
  listed : ∃ l : List ℕ, Walk s.links (.inl ()) (l.map .inr) ∧ l.Nodup ∧
    ∀ addr, addr ∈ l ↔ ∃ i, i < blockSizes ∧ s.pointers i = addr

/-! ## What the loop does -/

section Loop

variable {left : Leftovers} {allocatePages : ℕ → ℕ} {s s' : InitState}

/-- **One cache.** -/
theorem slabSetCache_ok {junk : ℤ} {cache order flags : ℕ}
    (h : slabSetCache left junk s cache order flags = .ok s') :
    ∃ size, left.blockSizeAt junk = some size ∧ s' = {
      cache := Function.update s.cache cache ((s.cache cache).set cache size flags)
      links := linkedListAppend s.links (some (.inl ())) (some (.inr cache))
      pointers := Function.update s.pointers order cache
      written := order :: s.written } := by
  rw [slabSetCache] at h
  split at h
  · simp at h
  · split at h
    · simp at h
    · rename_i size hsize
      split at h
      · simp at h
      · rw [Except.ok.injEq] at h
        exact ⟨size, hsize, h.symm⟩

/-- **The pointers that are written**: one in each round. -/
theorem kmInitializeLoop_pointers {n idx : ℕ}
    (h : kmInitializeLoop left allocatePages n idx s = .ok s') :
    (∀ i, i ∈ s'.written ↔ (idx ≤ i ∧ i < idx + n) ∨ i ∈ s.written) ∧
      ∀ i, s'.pointers i = if idx ≤ i ∧ i < idx + n then allocatePages i else s.pointers i := by
  induction n generalizing idx s with
  | zero =>
    rw [kmInitializeLoop, Except.ok.injEq] at h
    rw [← h]
    refine ⟨fun i ↦ ?_, fun i ↦ ?_⟩
    · rw [or_iff_right (by omega)]
    · rw [if_neg (by omega)]
  | succ n ih =>
    rw [kmInitializeLoop] at h
    split at h
    · simp at h
    · rename_i u hset
      obtain ⟨size, -, rfl⟩ := slabSetCache_ok hset
      obtain ⟨hmem, hlater⟩ := ih h
      refine ⟨fun i ↦ ?_, fun i ↦ ?_⟩
      · rw [hmem, List.mem_cons, ← or_assoc]
        refine or_congr_left ?_
        omega
      · rw [hlater]
        dsimp only
        rcases eq_or_ne i idx with rfl | hne
        · rw [if_neg (by omega), if_pos (by omega), Function.update_self]
        · rw [Function.update_of_ne hne]
          refine if_congr ?_ rfl rfl
          omega

/-- **The caches that are written**, if no page is supplied twice. -/
theorem kmInitializeLoop_cache {n idx : ℕ}
    (hdistinct : ∀ i j, idx ≤ i → i < idx + n → idx ≤ j → j < idx + n →
      allocatePages i = allocatePages j → i = j)
    (h : kmInitializeLoop left allocatePages n idx s = .ok s') :
    (∀ i, idx ≤ i → i < idx + n → ∃ size, left.blockSizeAt (left.size i) = some size ∧
      s'.cache (allocatePages i) =
        (s.cache (allocatePages i)).set (allocatePages i) size 0) ∧
      ∀ addr, (∀ i, idx ≤ i → i < idx + n → allocatePages i ≠ addr) →
        s'.cache addr = s.cache addr := by
  induction n generalizing idx s with
  | zero =>
    rw [kmInitializeLoop, Except.ok.injEq] at h
    rw [← h]
    exact ⟨fun i h1 h2 ↦ by omega, fun addr _ ↦ rfl⟩
  | succ n ih =>
    rw [kmInitializeLoop] at h
    split at h
    · simp at h
    · rename_i u hset
      obtain ⟨size, hsize, rfl⟩ := slabSetCache_ok hset
      obtain ⟨hlater, hframe⟩ := ih (fun i j h1 h2 h3 h4 ↦ hdistinct i j (by omega) (by omega)
        (by omega) (by omega)) h
      dsimp only at hlater hframe
      refine ⟨fun i h1 h2 ↦ ?_, fun addr haddr ↦ ?_⟩
      · rcases Nat.eq_or_lt_of_le h1 with rfl | hlt
        · -- the rounds that follow are about other pages
          refine ⟨size, hsize, ?_⟩
          rw [hframe _ fun j h3 h4 heq ↦ ?_, Function.update_self]
          have := hdistinct j idx (by omega) (by omega) (le_refl idx) (by omega) heq
          omega
        · obtain ⟨size', hsize', hcache'⟩ := hlater i hlt (by omega)
          refine ⟨size', hsize', ?_⟩
          rw [hcache', Function.update_of_ne]
          intro heq
          have := hdistinct i idx h1 h2 (le_refl idx) (by omega) heq
          omega
      · rw [hframe addr fun i h1 h2 ↦ haddr i (by omega) (by omega), Function.update_of_ne]
        exact (haddr idx (le_refl idx) (by omega)).symm

/-- When a cache comes out right. -/
theorem KMemoryCache.set_right_iff {cache : KMemoryCache} {addr size want : ℕ} :
    (cache.set addr size 0).Right want ↔ size = want ∧
      (archPageSize % want = 0 → cache.reserved = 0) ∧
      ∀ cpu, (cache.cpuSlab cpu).page = 0 ∧ (cache.cpuSlab cpu).partialPrev = 0 ∧
        (cache.cpuSlab cpu).partialNext = 0 := by
  have hslab : ∀ cpu, ({ cache.cpuSlab cpu with freelist := 0 } : CpuSlab) = ⟨0, 0, 0, 0⟩ ↔
      (cache.cpuSlab cpu).page = 0 ∧ (cache.cpuSlab cpu).partialPrev = 0 ∧
        (cache.cpuSlab cpu).partialNext = 0 := by
    intro cpu
    rw [CpuSlab.mk.injEq, and_iff_right rfl]
  have hrest : archPageSize - archPageSize / want * want = archPageSize % want := by
    have := Nat.div_add_mod archPageSize want
    rw [Nat.mul_comm] at this
    omega
  constructor
  · rintro ⟨hsize, hreserved, hcpu⟩
    obtain rfl : size = want := Int.ofNat_injective hsize
    refine ⟨rfl, fun hzero ↦ ?_, fun cpu ↦ (hslab cpu).mp (hcpu cpu)⟩
    rw [KMemoryCache.set] at hreserved
    dsimp only at hreserved
    rw [if_neg (not_not.mpr hzero), hzero] at hreserved
    exact hreserved
  · rintro ⟨rfl, hreserved, hcpu⟩
    refine ⟨rfl, ?_, fun cpu ↦ (hslab cpu).mpr (hcpu cpu)⟩
    rw [KMemoryCache.set]
    dsimp only
    split
    · rw [hrest]
    · rename_i hzero
      rw [not_not] at hzero
      rw [hreserved hzero, hzero]
      rfl

end Loop

/-! ## The caches -/

section Caches

variable {left : Leftovers} {allocatePages : ℕ → ℕ} {s : InitState}

/-- **When a cache comes out right**: `size` happens to hold the index of its block size (or of an
entry that is the same), and what it does not write of the page happens to be 0. -/
theorem kmInitialize_right_iff
    (hdistinct : ∀ i j, i < blockSizes → j < blockSizes → allocatePages i = allocatePages j → i = j)
    (h : kmInitialize left allocatePages = .ok s) {i : ℕ} (hidx : left.idx ≤ i)
    (hi : i < blockSizes) :
    (s.cache (s.pointers i)).Right (blockSizeTable.getD i 0) ↔
      left.blockSizeAt (left.size i) = some (blockSizeTable.getD i 0) ∧
      (archPageSize % blockSizeTable.getD i 0 = 0 →
        (left.cache (allocatePages i)).reserved = 0) ∧
      ∀ cpu, ((left.cache (allocatePages i)).cpuSlab cpu).page = 0 ∧
        ((left.cache (allocatePages i)).cpuSlab cpu).partialPrev = 0 ∧
        ((left.cache (allocatePages i)).cpuSlab cpu).partialNext = 0 := by
  have hend : left.idx + (blockSizes - left.idx) = blockSizes := by omega
  rw [kmInitialize] at h
  obtain ⟨-, hpointers⟩ := kmInitializeLoop_pointers h
  obtain ⟨hcaches, -⟩ := kmInitializeLoop_cache (fun j k _ h2 _ h4 ↦ hdistinct j k (by omega)
    (by omega)) h
  obtain ⟨size, hsize, hcache⟩ := hcaches i hidx (by omega)
  rw [hpointers, if_pos ⟨hidx, by omega⟩, hcache, KMemoryCache.set_right_iff, hsize,
    Option.some.injEq]
  rfl

/-- **The caches are never set up**: either the loop writes a pointer behind the array, or it does
nothing at all. -/
theorem kmInitialize_not_setUp (left : Leftovers) (allocatePages : ℕ → ℕ) :
    ¬ ∃ s, kmInitialize left allocatePages = .ok s ∧ s.SetUp := by
  rintro ⟨s, hrun, hs⟩
  rw [kmInitialize] at hrun
  obtain ⟨hwritten, hpointers⟩ := kmInitializeLoop_pointers hrun
  rcases Nat.lt_or_ge left.idx blockSizes with hlt | hge
  · have hlast : 16 ∈ s.written := by
      refine (hwritten 16).mpr (Or.inl ?_)
      dsimp only [blockSizes] at *
      omega
    exact absurd (hs.inside 16 hlast) (by decide)
  · have hnull : s.pointers 0 = 0 := by
      rw [hpointers, if_neg (by omega)]
      rfl
    exact (hs.recorded 0 (by decide)).1 hnull

end Caches

/-- Memory and variables that are all 0. -/
def zeroed : Leftovers where
  cache _ := ⟨0, 0, 0, fun _ ↦ ⟨0, 0, 0, 0⟩, fun _ ↦ 0⟩
  link _ := Link.null
  beyond _ := some 0
  size _ := 0
  idx := 0

/-- Four pages after four pages. -/
def fourPages (i : ℕ) : ℕ := 0xFFFFFFFF80600000 + i * (4 * archPageSize)

/-- **Even if everything is 0**: the second cache has blocks of 8 bytes, as all of them have, and
the last one is recorded behind the array. -/
theorem kmInitialize_zeroed : ∃ s, kmInitialize zeroed fourPages = .ok s ∧
    (s.cache (s.pointers 1)).size = 8 ∧ blockSizeTable.getD 1 0 = 16 ∧ 16 ∈ s.written ∧
    ¬ s.SetUp := by
  have hrun : (kmInitialize zeroed fourPages).map
      (fun s ↦ ((s.cache (s.pointers 1)).size, s.written.head?)) = .ok (8, some 16) := by
    decide +kernel
  rcases hcall : kmInitialize zeroed fourPages with f | s
  · rw [hcall] at hrun
    simp [Except.map] at hrun
  · rw [hcall, Except.map, Except.ok.injEq, Prod.mk.injEq] at hrun
    obtain ⟨hsize, hhead⟩ := hrun
    have hlast : 16 ∈ s.written := List.mem_of_mem_head? hhead
    exact ⟨s, rfl, hsize, by decide, hlast, fun h ↦ absurd (h.inside 16 hlast) (by decide)⟩

end CubikOS

import CubikOS.Lib.Bytes
import CubikOS.Mm.Page

/-!
# The slab allocator

`KM_Allocate` and what it calls, from `Kernel/src/mm/slub.c`.

A cache hands out objects of one size, which it cuts from pages.  Every processor has a slab of its
own in every cache: a page, and the list of the objects of the page that are still free, threaded
through the objects themselves.  The head of that list is kept twice, in the page's descriptor and
in the slab.

`__slab_AllocateObject` takes the first object from the slab, if there is one.  If there is none it
asks for a page, installs it in the slab and takes the first object of the page: but only the
descriptor's copy of the head moves on.  The slab's copy still names the object that is being
returned, and the next call on the slab returns it again.

What is left out are `kmem`, `slabCache` and `slab_frozen`, which are only ever written.
`cache->node[0]`, which lies inside the cache, is a record of its own.  Its lock is released before
a call ends, so it never changes; a call that finds it taken waits for ever.
-/

set_option autoImplicit false

namespace CubikOS

open Intrusive Bytes

/-! ## The state -/

/-- The caches of `g_cachePointers`. -/
abbrev CacheIndex := Fin 16

/-- What `CPU_CORE_ID` can be: one of `MAX_CPU_AMOUNT`. -/
abbrev CpuIndex := Fin 256

/-- The `blockSize` of each cache. -/
def blockSize : CacheIndex → ℕ :=
  ![8, 16, 32, 48, 64, 96, 128, 192, 256, 512, 768, 1024, 1536, 2048, 4096, 8192]

/-- `SLAB_MAX_SIZE`. -/
abbrev slabMaxSize : ℕ := 8192

/-- What a list link of the slab allocator can point to: `cpu_slab[cpu].partial` or
`node[0]->partial` of a cache, a list head of the page allocator, or the `listnode` of the
descriptor in slot `p`. -/
inductive SlabNode where
  | cpuPartial (cache : CacheIndex) (cpu : CpuIndex)
  | nodePartial (cache : CacheIndex)
  | handle (k : Fin (pageMaxOrder + 1))
  | frame (p : ℕ)
deriving DecidableEq

/-- The members of `struct Pageframe` the slab allocator uses. -/
structure SlabPage where
  /-- How many objects are in use, 16 bits. -/
  slabInuse : ℕ
  /-- How many objects there are, 15 bits. -/
  slabObjects : ℕ
  /-- The first free object. -/
  freelist : ℕ
deriving DecidableEq

/-- `struct KCpuCache`, without the list head. -/
structure KCpuCache where
  /-- The first free object, or 0. -/
  freelist : ℕ
  /-- The slot of the page's descriptor. -/
  page : Option ℕ
deriving DecidableEq

/-- Everything the slab allocator reads or writes. -/
structure SlabState where
  /-- `cache->size`. -/
  size : CacheIndex → ℕ
  /-- `cache->reserved`: what is left of a page when it has been cut up. -/
  reserved : CacheIndex → ℕ
  /-- `cache->node[0]->lock`. -/
  lock : CacheIndex → ℕ
  /-- `cache->node[0]->nr_partial`. -/
  nrPartial : CacheIndex → ℕ
  /-- `cache->cpu_slab[cpu]`. -/
  cpuSlab : CacheIndex → CpuIndex → KCpuCache
  /-- The descriptors, by slot. -/
  page : ℕ → SlabPage
  /-- The list nodes. -/
  links : Heap SlabNode
  /-- The bytes of memory. -/
  mem : ℕ → BitVec 8
  /-- Which pages are mapped, by page number. -/
  mapped : ℕ → Bool
  /-- How often `AllocatePages` has been called. -/
  taken : ℕ

/-- What one call of `AllocatePages(kernel, 1)` does, as far as the slab allocator can tell. -/
structure PageGrant where
  /-- The address of the page, or 0. -/
  virt : ℕ
  /-- The descriptor `PM_GetPage` finds for it. -/
  page : Option ℕ
  /-- What becomes of the list links. -/
  relink : Heap SlabNode → Heap SlabNode

/-- What the two variables hold that can be read before they are written. -/
structure Stack where
  /-- `cache` of `KM_FindCache`. -/
  cache : Option CacheIndex
  /-- `page` of `__slab_GetPartialPage`. -/
  page : Option ℕ

namespace SlabState

/-- Replace one descriptor. -/
def setPage (s : SlabState) (p : ℕ) (f : SlabPage) : SlabState :=
  { s with page := Function.update s.page p f }

/-- Replace the slab of one processor. -/
def setCpuSlab (s : SlabState) (cache : CacheIndex) (cpu : CpuIndex) (slab : KCpuCache) :
    SlabState :=
  { s with
    cpuSlab := Function.update s.cpuSlab cache (Function.update (s.cpuSlab cache) cpu slab) }

/-- Replace the links. -/
def setLinks (s : SlabState) (links : Heap SlabNode) : SlabState := { s with links := links }

/-- The call of `AllocatePages` has been made: its page is mapped. -/
def supply (s : SlabState) (got : PageGrant) : SlabState :=
  { s with
    links := got.relink s.links
    mapped := Function.update s.mapped (got.virt / archPageSize) true
    taken := s.taken + 1 }

/-- Whether the eight bytes at `a` can be accessed. -/
def accessible (s : SlabState) (a : ℕ) : Bool :=
  s.mapped (a / archPageSize) && s.mapped ((a + 7) % 2 ^ 64 / archPageSize)

end SlabState

/-- Read the pointer at `a`. -/
def read64 (s : SlabState) (a : ℕ) : Except Fault ℕ :=
  if s.accessible a then .ok (readBytes s.mem a 8) else .error .pageFault

/-- Write the pointer `v` at `a`. -/
def write64 (s : SlabState) (a v : ℕ) : Except Fault SlabState :=
  if s.accessible a then
    .ok { s with mem := writeBytes s.mem a v }
  else .error .pageFault

/-! ## The functions -/

/-- `KM_FindCache(size)`: the first cache whose blocks are larger than `size`.  When there is none
the variable that is returned was never written, and holds `junk`. -/
def kmFindCache (junk : Option CacheIndex) (size : ℕ) : Option CacheIndex :=
  if size > slabMaxSize then none
  else ((List.finRange 16).find? fun order ↦ decide (blockSize order > size)).or junk

/-- The loop of `__slab_SetPage`, `n` rounds of which are left: each object is made to point to the
next. -/
def setPageLoop (size virt : ℕ) : ℕ → ℕ → SlabState → Except Fault SlabState
  | 0, _, s => .ok s
  | n + 1, idx, s =>
    match write64 s ((virt + idx * size) % 2 ^ 64) ((virt + (idx + 1) * size) % 2 ^ 64) with
    | .error f => .error f
    | .ok s => setPageLoop size virt n (idx + 1) s

/-- The bound of the loop, `slab_objects - 1`.  It is compared with a `size_t`, so without objects
it is the largest of them. -/
def setPageBound (objects : ℕ) : ℕ := if objects = 0 then 2 ^ 64 - 1 else objects - 1

/-- How many objects a page of the cache is cut into, in 15 bits. -/
def SlabState.objects (s : SlabState) (cache : CacheIndex) : ℕ :=
  (archPageSize - s.reserved cache) / s.size cache % 2 ^ 15

/-- `__slab_SetPage(cache, page, virt)`. -/
def slabSetPage (s : SlabState) (cache : CacheIndex) (page virt : ℕ) : Except Fault SlabState :=
  setPageLoop (s.size cache) virt (setPageBound (s.objects cache)) 0
    (s.setPage page ⟨0, s.objects cache, virt⟩)

/-- `__slab_RequestPage(cache)`: the slot of the new page's descriptor. -/
def slabRequestPage (supply : ℕ → PageGrant) (s : SlabState) (cache : CacheIndex) :
    Except Fault (ℕ × SlabState) :=
  let got := supply s.taken
  if got.virt = 0 then .error .panic
  else match got.page with
    | none => .error .nullDereference
    | some page => match slabSetPage (s.supply got) cache page got.virt with
      | .error f => .error f
      | .ok s => .ok (page, s)

/-- `__slab_GetPartialPage(cache)`.  A page taken off the list is put into a variable that ends
with the block it is declared in; what is returned is the outer one. -/
def slabGetPartialPage (supply : ℕ → PageGrant) (junk : Stack) (s : SlabState)
    (cache : CacheIndex) : Except Fault (Option ℕ × SlabState) :=
  if s.lock cache ≠ 0 then .error .spin
  else if s.nrPartial cache = 0 then
    match slabRequestPage supply s cache with
    | .error f => .error f
    | .ok (page, s) => .ok (some page, s)
  else match (s.links (.nodePartial cache)).next with
    | some (.frame page) =>
      .ok (junk.page, { s with
        nrPartial := Function.update s.nrPartial cache (s.nrPartial cache - 1)
        links := linkedListRemove s.links (.frame page) })
    | some _ => .error .badPointer
    | none => .error .nullDereference

/-- `__slab_AssignCpuSlab(slabCpu, page)`. -/
def slabAssignCpuSlab (s : SlabState) (cache : CacheIndex) (cpu : CpuIndex) (page : Option ℕ) :
    Except Fault SlabState :=
  match page with
  | none => .error .nullDereference
  | some page => .ok ((s.setLinks (linkedListRemove s.links (.frame page))).setCpuSlab cache cpu
      ⟨(s.page page).freelist, some page⟩)

/-- The first free object of the page, once more object is in use: `ptr = page->freelist;
page->freelist = *page->freelist; page->slab_inuse++`. -/
def takeFromPage (s : SlabState) (page : ℕ) : Except Fault (ℕ × SlabState) :=
  match read64 s (s.page page).freelist with
  | .error f => .error f
  | .ok next => .ok ((s.page page).freelist, s.setPage page
      { s.page page with slabInuse := ((s.page page).slabInuse + 1) % 2 ^ 16, freelist := next })

/-- `FASTEST_PATH`, for an object `ptr`. -/
def fastestPath (supply : ℕ → PageGrant) (junk : Stack) (s : SlabState) (cache : CacheIndex)
    (cpu : CpuIndex) (page : Option ℕ) (ptr : ℕ) : Except Fault (ℕ × SlabState) :=
  match read64 s ptr, page with
  | .error f, _ => .error f
  | .ok _, none => .error .nullDereference
  | .ok next, some page =>
    let s := s.setCpuSlab cache cpu { s.cpuSlab cache cpu with freelist := next }
    let inuse := ((s.page page).slabInuse + 1) % 2 ^ 16
    let s := s.setPage page { s.page page with slabInuse := inuse, freelist := next }
    if inuse = (s.page page).slabObjects then
      match slabGetPartialPage supply junk s cache with
      | .error f => .error f
      | .ok (page, s) => match slabAssignCpuSlab s cache cpu page with
        | .error f => .error f
        | .ok s => .ok (ptr, s)
    else .ok (ptr, s)

/-- `SLOWEST_PATH`. -/
def slowestPath (supply : ℕ → PageGrant) (s : SlabState) (cache : CacheIndex) (cpu : CpuIndex) :
    Except Fault (ℕ × SlabState) :=
  match slabRequestPage supply s cache with
  | .error f => .error f
  | .ok (page, s) => match slabAssignCpuSlab s cache cpu (some page) with
    | .error f => .error f
    | .ok s => takeFromPage s page

/-- `FAST_PATH` when `partial.next` is `first`.  `again` is the jump back to `FASTEST_PATH`. -/
def fastPath (supply : ℕ → PageGrant) (again : SlabState → Except Fault (ℕ × SlabState))
    (s : SlabState) (cache : CacheIndex) (cpu : CpuIndex) (first : SlabNode) :
    Except Fault (ℕ × SlabState) :=
  match first with
  | .frame first =>
    match slabAssignCpuSlab s cache cpu (some first) with
    | .error f => .error f
    | .ok s => match (s.links (.cpuPartial cache cpu)).next with
      | none => again s
      | some (.frame page) => match takeFromPage s page with
        | .error f => .error f
        | .ok (_, s) =>
          -- nothing jumps over the slow paths here: what was taken is lost
          let s := if (s.page page).slabInuse = (s.page page).slabObjects then
              s.setLinks (linkedListRemove s.links (.frame page)) else s
          slowestPath supply s cache cpu
      | some _ => .error .badPointer
  | _ => .error .badPointer

/-- `__slab_AllocateObject(cache)` from `FASTEST_PATH` on.  `page` is the variable of that name, and
the fuel bounds how often `FASTEST_PATH` is reached: `FAST_PATH` jumps back only when it has emptied
the partial list, so that it is reached twice at most. -/
def slabAllocateLoop (supply : ℕ → PageGrant) (junk : Stack) (cache : CacheIndex) (cpu : CpuIndex)
    (page : Option ℕ) : ℕ → SlabState → Except Fault (ℕ × SlabState)
  | 0, _ => .error .outOfFuel
  | fuel + 1, s =>
    if (s.cpuSlab cache cpu).freelist ≠ 0 then
      fastestPath supply junk s cache cpu page (s.cpuSlab cache cpu).freelist
    else match (s.links (.cpuPartial cache cpu)).next with
      | some first => fastPath supply (slabAllocateLoop supply junk cache cpu page fuel) s cache
          cpu first
      | none => slowestPath supply s cache cpu

/-- `__slab_AllocateObject(cache)`. -/
def slabAllocateObject (supply : ℕ → PageGrant) (junk : Stack) (s : SlabState)
    (cache : Option CacheIndex) (cpu : CpuIndex) : Except Fault (ℕ × SlabState) :=
  match cache with
  | none => .error .panic
  | some cache => slabAllocateLoop supply junk cache cpu (s.cpuSlab cache cpu).page 2 s

/-- `KM_Allocate(size)`. -/
def kmAllocate (supply : ℕ → PageGrant) (junk : Stack) (s : SlabState) (cpu : CpuIndex)
    (size : ℕ) : Except Fault (ℕ × SlabState) :=
  slabAllocateObject supply junk s (kmFindCache junk.cache size) cpu

/-! ## A new page -/

/-- A write that is carried out. -/
theorem write64_ok {s s' : SlabState} {a v : ℕ} (hrun : write64 s a v = .ok s') :
    s' = { s with mem := writeBytes s.mem a v } := by
  rw [write64] at hrun
  split at hrun
  · rw [Except.ok.injEq] at hrun
    exact hrun.symm
  · simp at hrun

/-- The loop writes memory and nothing else. -/
theorem setPageLoop_ok {size virt n idx : ℕ} {s s' : SlabState}
    (hrun : setPageLoop size virt n idx s = .ok s') : ∃ m, s' = { s with mem := m } := by
  induction n generalizing idx s with
  | zero =>
    rw [setPageLoop, Except.ok.injEq] at hrun
    exact ⟨s.mem, hrun.symm⟩
  | succ n ih =>
    rw [setPageLoop] at hrun
    split at hrun
    · simp at hrun
    · rename_i s₁ hwrite
      obtain ⟨m, rfl⟩ := ih hrun
      obtain rfl := write64_ok hwrite
      exact ⟨m, rfl⟩

/-- The loop does not get past an address that is not mapped. -/
theorem setPageLoop_error {size virt n idx i : ℕ} {s : SlabState} (hi : i < n)
    (hmap : s.mapped ((virt + (idx + i) * size) % 2 ^ 64 / archPageSize) = false) (s' : SlabState) :
    setPageLoop size virt n idx s ≠ .ok s' := by
  induction n generalizing idx i s with
  | zero => omega
  | succ n ih =>
    rw [setPageLoop]
    rcases i with _ | i
    · have hacc : s.accessible ((virt + idx * size) % 2 ^ 64) = false := by
        rw [SlabState.accessible]
        rw [Nat.add_zero] at hmap
        rw [hmap, Bool.false_and]
      rw [write64, if_neg (by rw [hacc]; decide)]
      simp
    · split
      · simp
      · rename_i s₁ hwrite
        obtain rfl := write64_ok hwrite
        refine ih (i := i) (by omega) ?_
        rw [show idx + 1 + i = idx + (i + 1) by omega]
        exact hmap

/-- The state when `page`, at `virt`, has been cut into objects for the cache. -/
def requestState (s : SlabState) (got : PageGrant) (cache : CacheIndex) (page : ℕ)
    (m : ℕ → BitVec 8) : SlabState :=
  { (s.supply got).setPage page ⟨0, s.objects cache, got.virt⟩ with mem := m }

theorem slabRequestPage_ok {supply : ℕ → PageGrant} {s s' : SlabState} {cache : CacheIndex}
    {page : ℕ} (hrun : slabRequestPage supply s cache = .ok (page, s')) :
    (supply s.taken).virt ≠ 0 ∧ ∃ m, s' = requestState s (supply s.taken) cache page m := by
  rw [slabRequestPage] at hrun
  split at hrun
  · simp at hrun
  · rename_i hvirt
    split at hrun
    · simp at hrun
    · split at hrun
      · simp at hrun
      · rename_i s₁ hset
        rw [Except.ok.injEq, Prod.mk.injEq] at hrun
        obtain ⟨rfl, rfl⟩ := hrun
        rw [slabSetPage] at hset
        exact ⟨hvirt, setPageLoop_ok hset⟩

/-- What `SLOWEST_PATH` does: the slab gets the new page, with the first object, the one that is
returned, still at the head of its list. -/
structure NewSlab (s s' : SlabState) (got : PageGrant) (cache : CacheIndex) (cpu : CpuIndex)
    (addr : ℕ) : Prop where
  /-- The object is the first of the page. -/
  addr_eq : addr = got.virt
  /-- There is a page. -/
  addr_ne : addr ≠ 0
  /-- The slab that asked has the object at the head of its list. -/
  freelist_self : (s'.cpuSlab cache cpu).freelist = addr
  /-- The other slabs are as they were. -/
  cpuSlab_of_ne : ∀ k c, (k, c) ≠ (cache, cpu) → s'.cpuSlab k c = s.cpuSlab k c
  /-- The new page is taken off whatever list it was on. -/
  links : ∃ page, s'.links = linkedListRemove (got.relink s.links) (.frame page)
  /-- Nothing but the new page is mapped. -/
  mapped : s'.mapped = Function.update s.mapped (got.virt / archPageSize) true
  /-- One page more was taken. -/
  taken : s'.taken = s.taken + 1
  /-- The caches keep their sizes. -/
  size : s'.size = s.size
  /-- They keep what is left of their pages. -/
  reserved : s'.reserved = s.reserved

/-- The state when the page has been installed. -/
def assignState (s : SlabState) (cache : CacheIndex) (cpu : CpuIndex) (page : ℕ) : SlabState :=
  (s.setLinks (linkedListRemove s.links (.frame page))).setCpuSlab cache cpu
    ⟨(s.page page).freelist, some page⟩

theorem takeFromPage_ok {s s' : SlabState} {page addr : ℕ}
    (hrun : takeFromPage s page = .ok (addr, s')) :
    addr = (s.page page).freelist ∧ ∃ f, s' = s.setPage page f := by
  rw [takeFromPage] at hrun
  split at hrun
  · simp at hrun
  · rw [Except.ok.injEq, Prod.mk.injEq] at hrun
    exact ⟨hrun.1.symm, _, hrun.2.symm⟩

theorem slowestPath_ok {supply : ℕ → PageGrant} {s s' : SlabState} {cache : CacheIndex}
    {cpu : CpuIndex} {addr : ℕ} (hrun : slowestPath supply s cache cpu = .ok (addr, s')) :
    NewSlab s s' (supply s.taken) cache cpu addr := by
  rw [slowestPath] at hrun
  split at hrun
  · simp at hrun
  · rename_i page s₁ hrequest
    obtain ⟨hvirt, m, rfl⟩ := slabRequestPage_ok hrequest
    generalize supply s.taken = got at hvirt hrun ⊢
    obtain ⟨haddr, f, rfl⟩ := takeFromPage_ok (s := assignState _ cache cpu page) hrun
    have hfree : ((requestState s got cache page m).page page).freelist = got.virt := by
      simp only [requestState, SlabState.setPage, Function.update_self]
    have haddr : addr = got.virt := haddr.trans hfree
    refine ⟨haddr, by rw [haddr]; exact hvirt, ?_, fun k c hne ↦ ?_, ⟨page, ?_⟩, ?_, ?_, ?_, ?_⟩
    · simp only [SlabState.setPage, assignState, SlabState.setCpuSlab, Function.update_self, hfree,
        haddr]
    · simp only [SlabState.setPage, assignState, SlabState.setCpuSlab, SlabState.setLinks,
        requestState, SlabState.supply]
      rcases eq_or_ne k cache with rfl | hk
      · rw [Function.update_self, Function.update_of_ne (by rintro rfl; exact hne rfl)]
      · rw [Function.update_of_ne hk]
    all_goals simp only [SlabState.setPage, assignState, SlabState.setCpuSlab, SlabState.setLinks,
      requestState, SlabState.supply]

/-- What `FASTEST_PATH` returns is the head of the slab's list. -/
theorem fastestPath_ok {supply : ℕ → PageGrant} {junk : Stack} {s s' : SlabState}
    {cache : CacheIndex} {cpu : CpuIndex} {page : Option ℕ} {ptr addr : ℕ}
    (hrun : fastestPath supply junk s cache cpu page ptr = .ok (addr, s')) : addr = ptr := by
  rw [fastestPath.eq_def] at hrun
  split at hrun
  · simp at hrun
  · simp at hrun
  · dsimp only at hrun
    split at hrun
    · split at hrun
      · simp at hrun
      · split at hrun
        · simp at hrun
        · rw [Except.ok.injEq, Prod.mk.injEq] at hrun; exact hrun.1.symm
    · rw [Except.ok.injEq, Prod.mk.injEq] at hrun; exact hrun.1.symm

/-! ## Runs -/

/-- An object that was returned, and the slab it came from. -/
structure SlabObject where
  /-- What was returned. -/
  addr : ℕ
  /-- The cache `KM_FindCache` gives for the size. -/
  cache : CacheIndex
  /-- The processor the call was made on. -/
  cpu : CpuIndex
deriving DecidableEq

/-- The addresses of the object. -/
def SlabObject.span (o : SlabObject) : Set ℕ := Set.Ico o.addr (o.addr + blockSize o.cache)

/-- The slab that served the call. -/
def SlabObject.slab (o : SlabObject) : CacheIndex × CpuIndex := (o.cache, o.cpu)

/-- The runs from `s₀`: calls of `KM_Allocate` that return, on any processors and for any sizes up
to `SLAB_MAX_SIZE`, and between them writes into the objects returned so far.  The latest object
comes first. -/
inductive SlabRun (supply : ℕ → PageGrant) (s₀ : SlabState) : List SlabObject → SlabState → Prop
  | start : SlabRun supply s₀ [] s₀
  | alloc {R : List SlabObject} {s s' : SlabState} {junk : Stack} {cpu : CpuIndex}
      {cache : CacheIndex} {size addr : ℕ} (hrun : SlabRun supply s₀ R s) (hpos : 1 ≤ size)
      (hmax : size ≤ slabMaxSize) (hcache : kmFindCache junk.cache size = some cache)
      (hcall : kmAllocate supply junk s cpu size = .ok (addr, s')) :
      SlabRun supply s₀ (⟨addr, cache, cpu⟩ :: R) s'
  | write {R : List SlabObject} {s : SlabState} {m : ℕ → BitVec 8} (hrun : SlabRun supply s₀ R s)
      (hmem : ∀ a, (∀ o ∈ R, a ∉ o.span) → m a = s.mem a) :
      SlabRun supply s₀ R { s with mem := m }

/-- The objects do not overlap. -/
def DisjointObjects (R : List SlabObject) : Prop := R.Pairwise fun o o' ↦ Disjoint o.span o'.span

/-- A list head of the slab allocator. -/
def SlabNode.IsPartial : SlabNode → Prop
  | cpuPartial _ _ => True
  | nodePartial _ => True
  | handle _ => False
  | frame _ => False

/-- Every partial list is empty. -/
def NoPartials (h : Heap SlabNode) : Prop :=
  ∀ x, x.IsPartial → h x = Link.null ∧ ∀ y, (h y).next ≠ some x ∧ (h y).prev ≠ some x

/-- `AllocatePages(kernel, 1)` returns distinct pages of the address space, and does not put
anything onto a list of the slab allocator. -/
structure DistinctPages (supply : ℕ → PageGrant) : Prop where
  /-- The addresses are those of whole pages. -/
  aligned : ∀ i, archPageSize ∣ (supply i).virt
  /-- They lie in one of the two halves of the address space. -/
  canonical : ∀ i, (supply i).virt < 2 ^ 47 ∨
    2 ^ 64 - 2 ^ 47 ≤ (supply i).virt ∧ (supply i).virt < 2 ^ 64
  /-- No page is returned twice. -/
  distinct : ∀ i j, (supply i).virt ≠ 0 → (supply i).virt = (supply j).virt → i = j
  /-- The lists of the slab allocator are left alone. -/
  partials : ∀ i h, NoPartials h → NoPartials ((supply i).relink h)

/-- There is nothing between the two halves of the address space. -/
def SlabState.Hole (s : SlabState) : Prop :=
  ∀ n, 2 ^ 35 ≤ n → n < 2 ^ 52 - 2 ^ 35 → s.mapped n = false

/-- Caches of the sizes of the table, with nothing in them. -/
structure SlabState.Fresh (s : SlabState) : Prop where
  /-- The caches have the sizes of the table. -/
  size : ∀ k, s.size k = blockSize k
  /-- `reserved` is what `__slab_SetCache` computes. -/
  reserved : ∀ k, s.reserved k =
    if archPageSize % blockSize k ≠ 0 then archPageSize - archPageSize / blockSize k * blockSize k
    else 0
  /-- No processor has a slab. -/
  cpuSlab : ∀ k c, s.cpuSlab k c = ⟨0, none⟩
  /-- The lists of partial pages are empty. -/
  partials : NoPartials s.links
  /-- The nodes count no partial page. -/
  nrPartial : ∀ k, s.nrPartial k = 0
  /-- Nothing is mapped between the two halves of the address space. -/
  hole : s.Hole

theorem NoPartials.unlink {h : Heap SlabNode} (hno : NoPartials h) (p : ℕ) :
    NoPartials (linkedListRemove h (.frame p)) := by
  intro x hx
  obtain ⟨hnull, hpoint⟩ := hno x hx
  rw [linkedListRemove_eq]
  refine ⟨?_, fun y ↦ ⟨?_, ?_⟩⟩
  · refine Link.ext ?_ ?_
    · rw [Heap.unlink_prev, if_neg (hpoint _).1, hnull]
    · rw [Heap.unlink_next, if_neg (hpoint _).2, hnull]
  · rw [Heap.unlink_next]
    split
    · exact (hpoint _).1
    · exact (hpoint _).1
  · rw [Heap.unlink_prev]
    split
    · exact (hpoint _).2
    · exact (hpoint _).2

theorem blockSize_pos : ∀ k, 0 < blockSize k := by decide

theorem blockSize_le : ∀ k : CacheIndex, k ≠ 15 → blockSize k ≤ archPageSize := by decide

/-- Blocks of 8192 bytes do not fit into a page: the loop that links the objects of the page runs
off the end of it, and on to an address that is not mapped. -/
theorem slabRequestPage_ne_ok {supply : ℕ → PageGrant} {s : SlabState} (hS : DistinctPages supply)
    (hsize : s.size 15 = 8192) (hreserved : s.reserved 15 = 4096) (hhole : s.Hole)
    (r : ℕ × SlabState) : slabRequestPage supply s 15 ≠ .ok r := by
  have hobjects : setPageBound ((s.supply (supply s.taken)).objects 15) = 2 ^ 64 - 1 := by
    simp only [SlabState.objects, SlabState.supply, hsize, hreserved]; rfl
  have hloop : ∀ page s', slabSetPage (s.supply (supply s.taken)) 15 page (supply s.taken).virt ≠
      .ok s' := by
    intro page s'
    have hvirt : (supply s.taken).virt < 2 ^ 64 := by
      rcases hS.canonical s.taken with h | h <;> omega
    rw [slabSetPage, hobjects]
    -- the address that is not mapped is the one 2 ^ 48 bytes into the address space, or just below
    refine setPageLoop_error (i := (2 ^ 64 + 2 ^ 48 - (supply s.taken).virt) / 8192)
      (by omega) ?_ s'
    have hother : ((supply s.taken).virt + (0 + (2 ^ 64 + 2 ^ 48 - (supply s.taken).virt) / 8192) *
        8192) % 2 ^ 64 / archPageSize ≠ (supply s.taken).virt / archPageSize := by
      rcases hS.canonical s.taken with h | h <;> dsimp only [archPageSize] <;> omega
    have hsize' : (s.supply (supply s.taken)).size 15 = 8192 := hsize
    rw [hsize']
    simp only [SlabState.setPage, SlabState.supply]
    rw [Function.update_of_ne hother]
    refine hhole _ ?_ ?_ <;> dsimp only [archPageSize] <;> omega
  rw [slabRequestPage]
  split
  · simp
  · split
    · simp
    · split
      · simp
      · rename_i hset
        exact absurd hset (hloop _ _)

/-- The invariant of a run in which no slab has served two calls: a slab that has served one still
has its object at the head of the list. -/
structure SlabInv (supply : ℕ → PageGrant) (R : List SlabObject) (s : SlabState) : Prop where
  /-- The caches have the sizes of the table. -/
  size : ∀ k, s.size k = blockSize k
  /-- All of a page is left over in the last cache. -/
  reserved : s.reserved 15 = archPageSize
  /-- The lists of partial pages are empty. -/
  partials : NoPartials s.links
  /-- Nothing is mapped between the two halves of the address space. -/
  hole : s.Hole
  /-- A slab that has not been used is empty. -/
  unused : ∀ k c, (k, c) ∉ R.map SlabObject.slab → s.cpuSlab k c = ⟨0, none⟩
  /-- A slab that has been used still has its object at the head of the list. -/
  used : ∀ o ∈ R, (s.cpuSlab o.cache o.cpu).freelist = o.addr ∧ o.addr ≠ 0
  /-- Every object starts a page of its own. -/
  page : ∀ o ∈ R, o.cache ≠ 15 ∧ ∃ i < s.taken, o.addr = (supply i).virt
  /-- The objects do not overlap. -/
  apart : DisjointObjects R

theorem SlabState.Fresh.inv {supply : ℕ → PageGrant} {s : SlabState} (hs : s.Fresh) :
    SlabInv supply [] s where
  size := hs.size
  reserved := by rw [hs.reserved]; decide
  partials := hs.partials
  hole := hs.hole
  unused k c _ := hs.cpuSlab k c
  used o ho := absurd ho List.not_mem_nil
  page o ho := absurd ho List.not_mem_nil
  apart := List.Pairwise.nil

/-- Two objects that start different pages do not overlap. -/
theorem SlabObject.disjoint {o o' : SlabObject} (ho : archPageSize ∣ o.addr)
    (ho' : archPageSize ∣ o'.addr) (hk : o.cache ≠ 15) (hk' : o'.cache ≠ 15)
    (hne : o.addr ≠ o'.addr) : Disjoint o.span o'.span := by
  have h1 := blockSize_le _ hk
  have h2 := blockSize_le _ hk'
  rw [Set.disjoint_left]
  rintro a ⟨h3, h4⟩ ⟨h5, h6⟩
  obtain ⟨x, hx⟩ := ho
  obtain ⟨y, hy⟩ := ho'
  rw [hx, hy] at hne
  rw [hx] at h3 h4
  rw [hy] at h5 h6
  dsimp only [archPageSize] at *
  omega

/-- An object overlaps itself. -/
theorem SlabObject.not_disjoint {o o' : SlabObject} (haddr : o.addr = o'.addr) :
    ¬ Disjoint o.span o'.span := by
  intro h
  have h1 := blockSize_pos o.cache
  have h2 := blockSize_pos o'.cache
  exact Set.disjoint_left.mp h (show o.addr ∈ o.span from ⟨le_refl _, by omega⟩)
    ⟨by omega, by omega⟩

section Step

variable {supply : ℕ → PageGrant} {R : List SlabObject} {s s' : SlabState} {junk : Stack}
  {cache : CacheIndex} {cpu : CpuIndex} {addr : ℕ}

/-- The first call on a slab asks for a page. -/
theorem SlabInv.first (hI : SlabInv supply R s) (hnew : (cache, cpu) ∉ R.map SlabObject.slab)
    (hcall : slabAllocateObject supply junk s (some cache) cpu = .ok (addr, s')) :
    slowestPath supply s cache cpu = .ok (addr, s') := by
  have hnext : (s.links (.cpuPartial cache cpu)).next = none := by
    rw [(hI.partials (.cpuPartial cache cpu) trivial).1]; rfl
  rw [slabAllocateObject, slabAllocateLoop, hI.unused cache cpu hnew] at hcall
  simpa only [hnext, ne_eq, not_true_eq_false, if_false] using hcall

/-- And leaves the invariant intact. -/
theorem SlabInv.alloc (hI : SlabInv supply R s) (hS : DistinctPages supply)
    (hnew : (cache, cpu) ∉ R.map SlabObject.slab)
    (hcall : slabAllocateObject supply junk s (some cache) cpu = .ok (addr, s')) :
    SlabInv supply (⟨addr, cache, cpu⟩ :: R) s' := by
  have hslow := hI.first hnew hcall
  have hN := slowestPath_ok hslow
  have hcache : cache ≠ 15 := by
    rintro rfl
    rw [slowestPath] at hslow
    split at hslow
    · simp at hslow
    · rename_i hrequest
      exact slabRequestPage_ne_ok hS (hI.size 15) hI.reserved hI.hole _ hrequest
  have hother : ∀ o ∈ R, (o.cache, o.cpu) ≠ (cache, cpu) :=
    fun o ho heq ↦ hnew (heq ▸ List.mem_map_of_mem (f := SlabObject.slab) ho)
  refine ⟨fun k ↦ by rw [hN.size, hI.size], by rw [hN.reserved, hI.reserved], ?_, ?_, ?_, ?_, ?_,
    ?_⟩
  · obtain ⟨page, hlinks⟩ := hN.links
    rw [hlinks]
    exact (hS.partials _ _ hI.partials).unlink page
  · -- the page that was mapped lies in one of the halves
    intro n h1 h2
    rw [hN.mapped, Function.update_of_ne, hI.hole n h1 h2]
    rintro rfl
    rcases hS.canonical s.taken with h | h <;> dsimp only [archPageSize] at h1 h2 <;> omega
  · intro k c hkc
    rw [List.map_cons, List.mem_cons, not_or] at hkc
    rw [hN.cpuSlab_of_ne k c hkc.1, hI.unused k c hkc.2]
  · intro o ho
    rcases List.mem_cons.mp ho with rfl | ho
    · exact ⟨hN.freelist_self, hN.addr_ne⟩
    · rw [hN.cpuSlab_of_ne _ _ (hother o ho)]; exact hI.used o ho
  · intro o ho
    rcases List.mem_cons.mp ho with rfl | ho
    · exact ⟨hcache, s.taken, by rw [hN.taken]; omega, hN.addr_eq⟩
    · obtain ⟨hk, i, hi, haddr⟩ := hI.page o ho
      exact ⟨hk, i, by rw [hN.taken]; omega, haddr⟩
  · refine List.pairwise_cons.mpr ⟨fun o ho ↦ ?_, hI.apart⟩
    obtain ⟨hk, i, hi, haddr⟩ := hI.page o ho
    refine SlabObject.disjoint ?_ (haddr ▸ hS.aligned i) hcache hk ?_
    · rw [hN.addr_eq]; exact hS.aligned _
    · rw [hN.addr_eq, haddr]
      intro heq
      have := hS.distinct _ _ (hN.addr_eq ▸ hN.addr_ne) heq
      omega

/-- The second call on a slab returns what the first did. -/
theorem SlabInv.second (hI : SlabInv supply R s) {o : SlabObject} (ho : o ∈ R)
    (hslab : o.slab = (cache, cpu))
    (hcall : slabAllocateObject supply junk s (some cache) cpu = .ok (addr, s')) :
    addr = o.addr := by
  obtain ⟨rfl, rfl⟩ := Prod.mk.inj hslab
  obtain ⟨hfree, hne⟩ := hI.used o ho
  rw [slabAllocateObject, slabAllocateLoop, if_pos (by rw [hfree]; exact hne)] at hcall
  exact (fastestPath_ok hcall).trans hfree

end Step

theorem SlabInv.write {supply : ℕ → PageGrant} {R : List SlabObject} {s : SlabState}
    (hI : SlabInv supply R s) (m : ℕ → BitVec 8) : SlabInv supply R { s with mem := m } :=
  ⟨hI.size, hI.reserved, hI.partials, hI.hole, hI.unused, hI.used, hI.page, hI.apart⟩

/-- As long as no slab serves two calls the invariant holds, and once one has there are two objects
in one place. -/
theorem SlabRun.inv {supply : ℕ → PageGrant} {s₀ s : SlabState} {R : List SlabObject}
    (hS : DistinctPages supply) (hs : s₀.Fresh) (hrun : SlabRun supply s₀ R s) :
    (R.map SlabObject.slab).Nodup ∧ SlabInv supply R s ∨
      ¬ (R.map SlabObject.slab).Nodup ∧ ¬ DisjointObjects R := by
  induction hrun with
  | start => exact Or.inl ⟨List.nodup_nil, hs.inv⟩
  | @alloc R s s' junk cpu cache size addr _ hpos hmax hcache hcall ih =>
    rw [kmAllocate, hcache] at hcall
    rcases ih with ⟨hnd, hI⟩ | ⟨hnd, hover⟩
    · by_cases hnew : (cache, cpu) ∈ R.map SlabObject.slab
      · obtain ⟨o, ho, hslab⟩ := List.mem_map.mp hnew
        refine Or.inr ⟨fun h ↦ (List.nodup_cons.mp h).1 hnew, fun h ↦ ?_⟩
        exact SlabObject.not_disjoint (hI.second ho hslab hcall)
          ((List.pairwise_cons.mp h).1 o ho)
      · exact Or.inl ⟨List.nodup_cons.mpr ⟨hnew, hnd⟩, hI.alloc hS hnew hcall⟩
    · exact Or.inr ⟨fun h ↦ hnd (List.nodup_cons.mp h).2,
        fun h ↦ hover (List.pairwise_cons.mp h).2⟩
  | write _ _ ih =>
    rcases ih with ⟨hnd, hI⟩ | h
    · exact Or.inl ⟨hnd, hI.write _⟩
    · exact Or.inr h

/-- **Objects do not overlap for exactly as long as no slab serves two calls.** -/
theorem slabRun_disjoint_iff {supply : ℕ → PageGrant} {s₀ s : SlabState} {R : List SlabObject}
    (hS : DistinctPages supply) (hs : s₀.Fresh) (hrun : SlabRun supply s₀ R s) :
    DisjointObjects R ↔ (R.map SlabObject.slab).Nodup := by
  rcases hrun.inv hS hs with ⟨hnd, hI⟩ | ⟨hnd, hover⟩
  · exact ⟨fun _ ↦ hnd, fun _ ↦ hI.apart⟩
  · exact ⟨fun h ↦ absurd h hover, fun h ↦ absurd h hnd⟩

/-! ### Two calls -/

/-- Caches of the sizes of the table, and no memory at all. -/
def emptyCaches : SlabState where
  size := blockSize
  reserved k :=
    if archPageSize % blockSize k ≠ 0 then archPageSize - archPageSize / blockSize k * blockSize k
    else 0
  lock _ := 0
  nrPartial _ := 0
  cpuSlab _ _ := ⟨0, none⟩
  page _ := ⟨0, 0, 0⟩
  links _ := Link.null
  mem _ := 0#8
  mapped _ := false
  taken := 0

/-- Two pages, and then no more. -/
def twoPages (i : ℕ) : PageGrant :=
  if i < 2 then ⟨0xFFFFFFFF80000000 + i * archPageSize, some i, id⟩ else ⟨0, none, id⟩

/-- Nothing is left on the stack. -/
def emptyStack : Stack := ⟨none, none⟩

theorem emptyCaches_fresh : emptyCaches.Fresh where
  size _ := rfl
  reserved _ := rfl
  cpuSlab _ _ := rfl
  partials _ _ := ⟨rfl, fun _ ↦ by simp [emptyCaches, Link.null]⟩
  nrPartial _ := rfl
  hole _ _ _ := rfl

theorem twoPages_virt (i : ℕ) :
    (twoPages i).virt = if i < 2 then 0xFFFFFFFF80000000 + i * archPageSize else 0 := by
  rw [twoPages]; split <;> rfl

theorem twoPages_distinct : DistinctPages twoPages where
  aligned i := by
    rw [twoPages_virt]
    split
    · dsimp only [archPageSize]; omega
    · exact Nat.dvd_zero _
  canonical i := by
    rw [twoPages_virt]
    dsimp only [archPageSize]
    split <;> omega
  distinct i j := by
    rw [twoPages_virt, twoPages_virt]
    dsimp only [archPageSize]
    split <;> split <;> omega
  partials i h := by
    rw [twoPages]
    split <;> exact id

/-- A call whose result is known has returned. -/
theorem exists_of_map_fst {x : Except Fault (ℕ × SlabState)} {a : ℕ}
    (hx : x.map Prod.fst = .ok a) : ∃ s, x = .ok (a, s) := by
  rcases x with f | ⟨b, s⟩
  · simp [Except.map] at hx
  · simp only [Except.map, Except.ok.injEq] at hx
    exact ⟨s, by rw [hx]⟩

/-- Objects of two sizes. -/
theorem slabRun_disjoint_iff_two_sizes : ∃ s, SlabRun twoPages emptyCaches
      [⟨0xFFFFFFFF80001000, 12, 0⟩, ⟨0xFFFFFFFF80000000, 14, 0⟩] s ∧
    DisjointObjects [⟨0xFFFFFFFF80001000, 12, 0⟩, ⟨0xFFFFFFFF80000000, 14, 0⟩] := by
  have hcalls : ((kmAllocate twoPages emptyStack emptyCaches 0 2048).bind fun r ↦
      kmAllocate twoPages emptyStack r.2 0 1024).map Prod.fst = .ok 0xFFFFFFFF80001000 := by
    decide +kernel
  obtain ⟨s₁, hfirst⟩ : ∃ s₁, kmAllocate twoPages emptyStack emptyCaches 0 2048 =
      .ok (0xFFFFFFFF80000000, s₁) := exists_of_map_fst (by decide +kernel)
  rw [hfirst] at hcalls
  obtain ⟨s₂, hsecond⟩ := exists_of_map_fst hcalls
  have hrun := (SlabRun.start.alloc (by decide) (by decide) rfl hfirst).alloc (by decide)
    (by decide) rfl hsecond
  exact ⟨s₂, hrun, (slabRun_disjoint_iff twoPages_distinct emptyCaches_fresh hrun).mpr
    (by decide)⟩

/-- **The same object twice**: two calls of one size on one processor. -/
theorem slabRun_same_object : emptyCaches.Fresh ∧ DistinctPages twoPages ∧
    (∃ s, SlabRun twoPages emptyCaches
      [⟨0xFFFFFFFF80000000, 14, 0⟩, ⟨0xFFFFFFFF80000000, 14, 0⟩] s) ∧
    ¬ DisjointObjects [⟨0xFFFFFFFF80000000, 14, 0⟩, ⟨0xFFFFFFFF80000000, 14, 0⟩] := by
  have hcalls : ((kmAllocate twoPages emptyStack emptyCaches 0 2048).bind fun r ↦
      kmAllocate twoPages emptyStack r.2 0 2048).map Prod.fst = .ok 0xFFFFFFFF80000000 := by
    decide +kernel
  obtain ⟨s₁, hfirst⟩ : ∃ s₁, kmAllocate twoPages emptyStack emptyCaches 0 2048 =
      .ok (0xFFFFFFFF80000000, s₁) := exists_of_map_fst (by decide +kernel)
  rw [hfirst] at hcalls
  obtain ⟨s₂, hsecond⟩ := exists_of_map_fst hcalls
  refine ⟨emptyCaches_fresh, twoPages_distinct, ⟨s₂, (SlabRun.start.alloc (by decide) (by decide)
    rfl hfirst).alloc (by decide) (by decide) rfl hsecond⟩, fun h ↦ ?_⟩
  exact SlabObject.not_disjoint rfl ((List.pairwise_cons.mp h).1 _ (List.mem_singleton_self _))

end CubikOS

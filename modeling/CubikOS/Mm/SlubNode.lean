import CubikOS.Lib.Bytes
import CubikOS.Mm.SlubInit
import CubikOS.Arch.Bitmap

/-!
# The nodes of a cache

Where `__slab_SetCache` of `Kernel/src/mm/slub.c` puts the four `struct KMemoryNode`s of a cache,
and what that means for `__slab_GetPartialPage` and `__slab_AllocateObject`.

A node is put at an offset from the beginning of the cache, not behind its end.  So the first of
them lies on the links of the cache's `listnode`: the lock on `prev`, and `nr_partial` on `next`.
The list is written after that, and the lock is never free.

* `nodeLock_cacheBytes` says what the lock holds: half of an address.
* `slabAllocateObject_lock` says that no call changes it.
* `node_not_apart` says that whoever takes the lock changes the list of caches.
* `node_never_consistent` says that the node of a cache is never in order.
-/

set_option autoImplicit false

namespace CubikOS

open Bytes Intrusive

/-! ## The layout of a cache -/

/-- A list node as an address, `cacheList` being that of `g_cacheList`. -/
def linkAddr (cacheList : ℕ) : Option (Unit ⊕ ℕ) → ℕ
  | none => 0
  | some (.inl _) => cacheList
  | some (.inr cache) => cache

/-- The four words of a `struct KCpuCache`. -/
def CpuSlab.word (slab : CpuSlab) : ℕ → ℕ
  | 0 => slab.freelist
  | 1 => slab.page
  | 2 => slab.partialPrev
  | _ => slab.partialNext

section Layout

variable (junk : ℕ → ℕ) (cacheList : ℕ) (t : InitState) (cache : ℕ)

/-- The pages of a cache, in words of 8 bytes.  `name`, `object_size`, `object_align`, `offset` and
`min_partial` are not written by anybody, nor is what lies behind the structure. -/
def cacheWord (i : ℕ) : ℕ :=
  if i = 0 then linkAddr cacheList (t.links (.inr cache)).prev
  else if i = 1 then linkAddr cacheList (t.links (.inr cache)).next
  else if 3 ≤ i ∧ i < 1027 then
    ((t.cache cache).cpuSlab (Fin.ofNat 256 ((i - 3) / 4))).word ((i - 3) % 4)
  else if i = 1027 then (t.cache cache).flags
  else if i = 1028 then ((t.cache cache).size % 2 ^ 32).toNat + 2 ^ 32 * junk i
  else if 1030 ≤ i ∧ i < 1034 then (t.cache cache).node (Fin.ofNat 4 (i - 1030))
  else if i = 1035 then ((t.cache cache).reserved % 2 ^ 32).toNat + 2 ^ 32 * junk i
  else junk i

/-- The pages of a cache, in bytes. -/
def cacheBytes (a : ℕ) : BitVec 8 :=
  BitVec.ofNat 8 (cacheWord junk cacheList t cache ((a - cache) / 8) / 256 ^ ((a - cache) % 8))

end Layout

/-- Where the fields of a `struct KMemoryCache` are, and their sizes. -/
def cacheFields : List (ℕ × ℕ) :=
  [(0, 8), (8, 8), (16, 8)] ++ (List.range 1024).map (fun i ↦ (24 + 8 * i, 8)) ++
    [(8216, 8), (8224, 4), (8228, 4), (8232, 4), (8236, 4), (8240, 8), (8248, 8), (8256, 8),
      (8264, 8), (8272, 8), (8280, 4)]

section Node

variable (mem : ℕ → BitVec 8) (cache : ℕ)

/-- `cache->node[0]`. -/
def nodeAddr : ℕ := readBytes mem (cache + 8240) 8

/-- `cache->node[0]->lock`. -/
def nodeLock : ℕ := readBytes mem (nodeAddr mem cache) 4

/-- `cache->node[0]->nr_partial`. -/
def nodeNrPartial : ℕ := readBytes mem (nodeAddr mem cache + 8) 8

/-- The bytes of the lock and of `nr_partial`. -/
def nodeBytes : Set ℕ :=
  Set.Ico (nodeAddr mem cache) (nodeAddr mem cache + 4) ∪
    Set.Ico (nodeAddr mem cache + 8) (nodeAddr mem cache + 16)

end Node

/-- What is expected of the node of a cache between calls.  `mem` is the memory the cache lies in,
and `s` the state of the allocator. -/
structure NodeConsistent (mem : ℕ → BitVec 8) (cache : ℕ) (s : SlabState) (k : CacheIndex) :
    Prop where
  /-- The lock is free. -/
  lock : s.lock k = 0
  /-- The pages on the list are counted. -/
  nrPartial : ∃ pages : List ℕ, Walk s.links (.nodePartial k) (pages.map .frame) ∧
    s.nrPartial k = pages.length
  /-- A change of these two is no change of anything else in the cache. -/
  apart : ∀ mem' : ℕ → BitVec 8, (∀ a, a ∉ nodeBytes mem cache → mem' a = mem a) →
    ∀ f ∈ cacheFields, readBytes mem' (cache + f.1) f.2 = readBytes mem (cache + f.1) f.2

/-- Calls of `__slab_AllocateObject` that return, one after the other. -/
inductive SlabCalls (supply : ℕ → PageGrant) (s₀ : SlabState) : SlabState → Prop
  | start : SlabCalls supply s₀ s₀
  | call {s s' : SlabState} {junk : Stack} {cache : Option CacheIndex} {cpu : CpuIndex} {addr : ℕ}
    (hcalls : SlabCalls supply s₀ s)
    (hcall : slabAllocateObject supply junk s cache cpu = .ok (addr, s')) :
    SlabCalls supply s₀ s'

/-! ## The list of caches -/

section List

variable {left : Leftovers} {allocatePages : ℕ → ℕ} {t u : InitState}

/-- A cache whose node lies on its `listnode`, which has a predecessor. -/
structure OnList (allocatePages : ℕ → ℕ) (t : InitState) (cache : ℕ) : Prop where
  /-- The node lies on the cache itself. -/
  node : (t.cache cache).node 0 = cache
  /-- There is a predecessor: `g_cacheList`, or another cache. -/
  prev : ∃ x, (t.links (.inr cache)).prev = some x ∧
    (x = .inl () ∨ ∃ i < blockSizes, x = .inr (allocatePages i))

/-- What `LinkedListAppend` makes of the predecessors. -/
theorem linkedListAppend_prev {ν : Type} [DecidableEq ν] (h : Heap ν) (current node x : ν) :
    (linkedListAppend h (some current) (some node) x).prev = (h x).prev ∧ x ≠ node ∨
      (linkedListAppend h (some current) (some node) x).prev = some current ∨
      (linkedListAppend h (some current) (some node) x).prev = some node := by
  rw [linkedListAppend]
  rcases hfirst : ((h.setPrev node (some current)) current).next with _ | first
  · simp only [Heap.setNext_prev, Heap.setPrev_prev]
    by_cases hnode : x = node <;> simp [hnode]
  · simp only [Heap.setNext_prev, Heap.setPrev_prev]
    by_cases hx : x = first
    · simp [hx]
    · rw [if_neg hx]
      by_cases hnode : x = node <;> simp [hnode]

/-- **One more cache** on the list. -/
theorem slabSetCache_onList {junk : ℤ} {idx order flags cache : ℕ} (hidx : idx < blockSizes)
    (h : slabSetCache left junk t (allocatePages idx) order flags = .ok u)
    (hcache : cache = allocatePages idx ∨ OnList allocatePages t cache) :
    OnList allocatePages u cache := by
  obtain ⟨size, -, rfl⟩ := slabSetCache_ok h
  constructor <;> dsimp only
  · by_cases hsame : cache = allocatePages idx
    · rw [hsame, Function.update_self]
      rfl
    · rw [Function.update_of_ne hsame]
      exact (hcache.resolve_left hsame).node
  · rcases linkedListAppend_prev t.links (.inl ()) (.inr (allocatePages idx)) (.inr cache) with
      ⟨hprev, hne⟩ | hprev | hprev
    · have hne : cache ≠ allocatePages idx := fun heq ↦ hne (by rw [heq])
      rw [hprev]
      exact (hcache.resolve_left hne).prev
    · exact ⟨_, hprev, Or.inl rfl⟩
    · exact ⟨_, hprev, Or.inr ⟨idx, hidx, rfl⟩⟩

/-- **The caches that are set up are on the list.** -/
theorem kmInitializeLoop_onList {n idx : ℕ} {cache : ℕ}
    (hn : ∀ i, idx ≤ i → i < idx + n → i < blockSizes)
    (h : kmInitializeLoop left allocatePages n idx t = .ok u)
    (hcache : (∃ i, idx ≤ i ∧ i < idx + n ∧ cache = allocatePages i) ∨
      OnList allocatePages t cache) :
    OnList allocatePages u cache := by
  induction n generalizing idx t with
  | zero =>
    rw [kmInitializeLoop, Except.ok.injEq] at h
    rw [← h]
    refine hcache.resolve_left ?_
    rintro ⟨i, h1, h2, -⟩
    omega
  | succ n ih =>
    rw [kmInitializeLoop] at h
    split at h
    · simp at h
    · rename_i v hset
      have hidx : idx < blockSizes := hn idx (le_refl idx) (by omega)
      refine ih (fun i h1 h2 ↦ hn i (by omega) (by omega)) h ?_
      rcases hcache with ⟨i, h1, h2, hi⟩ | hon
      · rcases Nat.eq_or_lt_of_le h1 with rfl | hlt
        · exact Or.inr (slabSetCache_onList hidx hset (Or.inl hi))
        · exact Or.inl ⟨i, hlt, by omega, hi⟩
      · exact Or.inr (slabSetCache_onList hidx hset (Or.inr hon))

end List

/-! ## The lock -/

section Lock

variable {junk : ℕ → ℕ} {cacheList cache : ℕ} {t : InitState}

/-- Part of a word of the cache. -/
theorem readBytes_cacheBytes {i n : ℕ} (hfit : cache + 8 * i + 8 ≤ 2 ^ 64) (hn : n ≤ 8) :
    readBytes (cacheBytes junk cacheList t cache) (cache + 8 * i) n =
      cacheWord junk cacheList t cache i % 256 ^ n := by
  have hbytes : ∀ j, j < 8 → cacheBytes junk cacheList t cache (cache + 8 * i + j) =
      BitVec.ofNat 8 (cacheWord junk cacheList t cache i / 256 ^ j) := by
    intro j hj
    have hword : (cache + 8 * i + j - cache) / 8 = i := by omega
    have hbyte : (cache + 8 * i + j - cache) % 8 = j := by omega
    rw [cacheBytes, hword, hbyte]
  have hread := readBytes_of_bytes hfit hbytes (show 0 + n ≤ 8 by omega)
  rwa [Nat.add_zero, Nat.pow_zero, Nat.div_one] at hread

/-- The node lies where the cache lies. -/
theorem nodeAddr_cacheBytes (hfit : cache + 4 * archPageSize ≤ 2 ^ 64)
    (hnode : (t.cache cache).node 0 = cache) :
    nodeAddr (cacheBytes junk cacheList t cache) cache = cache := by
  dsimp only [archPageSize] at hfit
  have hword : cacheWord junk cacheList t cache 1030 = cache := hnode
  have hread := @readBytes_cacheBytes junk cacheList cache t 1030 8 (by omega) (le_refl 8)
  rw [hword, Nat.mod_eq_of_lt (by omega)] at hread
  exact hread

/-- **What the lock holds**: the lower half of the predecessor's address. -/
theorem nodeLock_cacheBytes (hfit : cache + 4 * archPageSize ≤ 2 ^ 64)
    (hnode : (t.cache cache).node 0 = cache) :
    nodeLock (cacheBytes junk cacheList t cache) cache =
      linkAddr cacheList (t.links (.inr cache)).prev % 2 ^ 32 := by
  rw [nodeLock, nodeAddr_cacheBytes hfit hnode]
  dsimp only [archPageSize] at hfit
  exact @readBytes_cacheBytes junk cacheList cache t 0 4 (by omega) (by decide)

/-- It is not 0 if the kernel lies in the last 2 GiB. -/
theorem nodeLock_ne_zero {allocatePages : ℕ → ℕ} (hfit : cache + 4 * archPageSize ≤ 2 ^ 64)
    (h : OnList allocatePages t cache)
    (hlist : kernelVirtualBase ≤ cacheList ∧ cacheList < 2 ^ 64)
    (hpages : ∀ i, i < blockSizes →
      kernelVirtualBase ≤ allocatePages i ∧ allocatePages i < 2 ^ 64) :
    nodeLock (cacheBytes junk cacheList t cache) cache ≠ 0 := by
  obtain ⟨x, hprev, hx⟩ := h.prev
  have haddr : kernelVirtualBase ≤ linkAddr cacheList (some x) ∧
      linkAddr cacheList (some x) < 2 ^ 64 := by
    rcases hx with rfl | ⟨i, hi, rfl⟩
    · exact hlist
    · exact hpages i hi
  rw [nodeLock_cacheBytes hfit h.node, hprev]
  dsimp only [kernelVirtualBase] at haddr
  omega

/-- **A change of the lock is a change of the `listnode`.** -/
theorem node_not_apart (hfit : cache + 4 * archPageSize ≤ 2 ^ 64)
    (hnode : (t.cache cache).node 0 = cache) : ∃ mem' : ℕ → BitVec 8,
    (∀ a, a ∉ nodeBytes (cacheBytes junk cacheList t cache) cache →
      mem' a = cacheBytes junk cacheList t cache a) ∧
    ∃ f ∈ cacheFields, readBytes mem' (cache + f.1) f.2 ≠
      readBytes (cacheBytes junk cacheList t cache) (cache + f.1) f.2 := by
  have haddr : nodeAddr (cacheBytes junk cacheList t cache) cache = cache :=
    nodeAddr_cacheBytes hfit hnode
  generalize cacheBytes junk cacheList t cache = mem at *
  refine ⟨Function.update mem cache (mem cache + 1), fun a ha ↦ ?_, (0, 8), by decide, fun h ↦ ?_⟩
  · refine Function.update_of_ne (fun heq ↦ ha (Or.inl ?_)) _ _
    rw [haddr, heq]
    exact ⟨le_refl cache, by omega⟩
  · have hbyte := congrArg (· % 256) h
    simp only [Nat.add_zero, readBytes_mod, Function.update_self] at hbyte
    exact absurd (BitVec.eq_of_toNat_eq hbyte) (by simp)

end Lock

/-! ## The calls -/

section Calls

variable {supply : ℕ → PageGrant} {junk : Stack} {s s' : SlabState} {cache : CacheIndex}
  {cpu : CpuIndex}

theorem slabAssignCpuSlab_lock {page : Option ℕ}
    (h : slabAssignCpuSlab s cache cpu page = .ok s') : s'.lock = s.lock := by
  cases page with
  | none => simp [slabAssignCpuSlab] at h
  | some page =>
    rw [slabAssignCpuSlab, Except.ok.injEq] at h
    rw [← h]
    rfl

theorem slabGetPartialPage_lock {page : Option ℕ}
    (h : slabGetPartialPage supply junk s cache = .ok (page, s')) : s'.lock = s.lock := by
  rw [slabGetPartialPage] at h
  split at h
  · simp at h
  · split at h
    · split at h
      · simp at h
      · rename_i page s₁ hrequest
        obtain ⟨-, m, rfl⟩ := slabRequestPage_ok hrequest
        rw [Except.ok.injEq, Prod.mk.injEq] at h
        rw [← h.2]
        rfl
    · split at h
      · rw [Except.ok.injEq, Prod.mk.injEq] at h
        rw [← h.2]
      · simp at h
      · simp at h

theorem takeFromPage_lock {page addr : ℕ} (h : takeFromPage s page = .ok (addr, s')) :
    s'.lock = s.lock := by
  obtain ⟨-, f, rfl⟩ := takeFromPage_ok h
  rfl

theorem fastestPath_lock {page : Option ℕ} {ptr addr : ℕ}
    (h : fastestPath supply junk s cache cpu page ptr = .ok (addr, s')) : s'.lock = s.lock := by
  rw [fastestPath.eq_def] at h
  split at h
  · simp at h
  · simp at h
  · dsimp only at h
    split at h
    · split at h
      · simp at h
      · rename_i page s₁ hpartial
        split at h
        · simp at h
        · rename_i s₂ hassign
          rw [Except.ok.injEq, Prod.mk.injEq] at h
          rw [← h.2, slabAssignCpuSlab_lock hassign, slabGetPartialPage_lock hpartial]
          rfl
    · rw [Except.ok.injEq, Prod.mk.injEq] at h
      rw [← h.2]
      rfl

theorem slowestPath_lock {addr : ℕ} (h : slowestPath supply s cache cpu = .ok (addr, s')) :
    s'.lock = s.lock := by
  rw [slowestPath] at h
  split at h
  · simp at h
  · rename_i page s₁ hrequest
    obtain ⟨-, m, rfl⟩ := slabRequestPage_ok hrequest
    split at h
    · simp at h
    · rename_i s₂ hassign
      rw [takeFromPage_lock h, slabAssignCpuSlab_lock hassign]
      rfl

theorem fastPath_lock {again : SlabState → Except Fault (ℕ × SlabState)} {first : SlabNode}
    {addr : ℕ} (hagain : ∀ u a u', again u = .ok (a, u') → u'.lock = u.lock)
    (h : fastPath supply again s cache cpu first = .ok (addr, s')) : s'.lock = s.lock := by
  rw [fastPath.eq_def] at h
  split at h
  · split at h
    · simp at h
    · rename_i s₁ hassign
      have hfirst := slabAssignCpuSlab_lock hassign
      split at h
      · rw [hagain _ _ _ h, hfirst]
      · split at h
        · simp at h
        · rename_i s₂ htake
          dsimp only at h
          rw [slowestPath_lock h, ← hfirst, ← takeFromPage_lock htake]
          split <;> rfl
      · simp at h
  · simp at h

theorem slabAllocateLoop_lock {page : Option ℕ} {fuel addr : ℕ}
    (h : slabAllocateLoop supply junk cache cpu page fuel s = .ok (addr, s')) :
    s'.lock = s.lock := by
  induction fuel generalizing s addr s' with
  | zero => simp [slabAllocateLoop] at h
  | succ fuel ih =>
    rw [slabAllocateLoop] at h
    split at h
    · exact fastestPath_lock h
    · split at h
      · exact fastPath_lock (fun u a u' hu ↦ ih hu) h
      · exact slowestPath_lock h

/-- **No call that returns changes a lock.** -/
theorem slabAllocateObject_lock {cache : Option CacheIndex} {addr : ℕ}
    (h : slabAllocateObject supply junk s cache cpu = .ok (addr, s')) : s'.lock = s.lock := by
  cases cache with
  | none => simp [slabAllocateObject] at h
  | some cache => exact slabAllocateLoop_lock h

theorem SlabCalls.lock {s₀ : SlabState} (h : SlabCalls supply s₀ s) : s.lock = s₀.lock := by
  induction h with
  | start => rfl
  | call _ hcall ih => rw [slabAllocateObject_lock hcall, ih]

end Calls

/-! ## The node -/

/-- **The node of a cache is never in order**, whatever was in memory before the caches were set up
and whatever objects have been allocated since.  `s` is the state of the allocator when
`KM_Initialize` has returned, and `s'` after any number of calls. -/
theorem node_never_consistent {left : Leftovers} {allocatePages : ℕ → ℕ} {t : InitState}
    (hinit : kmInitialize left allocatePages = .ok t) {cacheList : ℕ}
    (hlist : kernelVirtualBase ≤ cacheList ∧ cacheList < 2 ^ 64)
    (hpages : ∀ i, i < blockSizes → kernelVirtualBase ≤ allocatePages i ∧
      allocatePages i + 4 * archPageSize ≤ 2 ^ 64)
    (junk : ℕ → ℕ) {supply : ℕ → PageGrant} {s s' : SlabState}
    (hlock : ∀ k : CacheIndex, s.lock k =
      nodeLock (cacheBytes junk cacheList t (allocatePages k)) (allocatePages k))
    (hcalls : SlabCalls supply s s') (k : CacheIndex) (hk : left.idx ≤ k) :
    ¬ NodeConsistent (cacheBytes junk cacheList t (allocatePages k)) (allocatePages k) s' k := by
  intro h
  have hcache : (k : ℕ) < blockSizes := k.isLt.trans (by decide)
  have hon : OnList allocatePages t (allocatePages k) :=
    kmInitializeLoop_onList (fun i _ _ ↦ by omega) hinit
      (Or.inl ⟨k, hk, by omega, rfl⟩)
  have hfree := h.lock
  rw [hcalls.lock, hlock] at hfree
  refine nodeLock_ne_zero (hpages k hcache).2 hon hlist (fun i hi ↦ ⟨(hpages i hi).1, ?_⟩) hfree
  have := (hpages i hi).2
  dsimp only [archPageSize] at this
  omega

/-- The allocator with the nodes as they are in memory. -/
def withNodes (cacheList : ℕ) (t : InitState) (allocatePages : ℕ → ℕ) : SlabState :=
  { emptyCaches with
    lock := fun k ↦
      nodeLock (cacheBytes (fun _ ↦ 0) cacheList t (allocatePages k)) (allocatePages k)
    nrPartial := fun k ↦
      nodeNrPartial (cacheBytes (fun _ ↦ 0) cacheList t (allocatePages k)) (allocatePages k) }

/-- One object of the first cache is had, all memory having been 0. -/
theorem slabAllocateObject_withNodes : ∃ t addr s', kmInitialize zeroed fourPages = .ok t ∧
    slabAllocateObject twoPages emptyStack (withNodes 0xFFFFFFFF80500000 t fourPages) (some 0) 0 =
      .ok (addr, s') := by
  have hrun : ((kmInitialize zeroed fourPages).bind fun t ↦
      (slabAllocateObject twoPages emptyStack (withNodes 0xFFFFFFFF80500000 t fourPages)
        (some 0) 0).map Prod.fst) = .ok 0xFFFFFFFF80000000 := by
    decide +kernel
  rcases hinit : kmInitialize zeroed fourPages with f | t
  · rw [hinit] at hrun
    simp [Except.bind] at hrun
  · rw [hinit, Except.bind] at hrun
    rcases hcall : slabAllocateObject twoPages emptyStack
        (withNodes 0xFFFFFFFF80500000 t fourPages) (some 0) 0 with f | ⟨addr, s'⟩
    · rw [hcall] at hrun
      simp [Except.map] at hrun
    · exact ⟨t, addr, s', rfl, hcall⟩

/-- The node of the first cache after that call. -/
theorem node_never_consistent_zeroed : ∃ t addr s', kmInitialize zeroed fourPages = .ok t ∧
    slabAllocateObject twoPages emptyStack (withNodes 0xFFFFFFFF80500000 t fourPages) (some 0) 0 =
      .ok (addr, s') ∧
    ¬ NodeConsistent (cacheBytes (fun _ ↦ 0) 0xFFFFFFFF80500000 t (fourPages 0)) (fourPages 0)
      s' 0 := by
  obtain ⟨t, addr, s', hinit, hcall⟩ := slabAllocateObject_withNodes
  exact ⟨t, addr, s', hinit, hcall, node_never_consistent hinit (by decide) (by decide)
    (fun _ ↦ 0) (fun _ ↦ rfl) (.call .start hcall) 0 (by decide)⟩

/-- **The first lock holds half of the address of the second cache.** -/
theorem nodeLock_zeroed : ∃ t, kmInitialize zeroed fourPages = .ok t ∧
    nodeLock (cacheBytes (fun _ ↦ 0) 0xFFFFFFFF80500000 t (fourPages 0)) (fourPages 0) =
      0x80604000 ∧ fourPages 1 = 0xFFFFFFFF80604000 ∧
    ¬ NodeConsistent (cacheBytes (fun _ ↦ 0) 0xFFFFFFFF80500000 t (fourPages 0)) (fourPages 0)
      (withNodes 0xFFFFFFFF80500000 t fourPages) 0 := by
  have hrun : (kmInitialize zeroed fourPages).map (fun t ↦
      nodeLock (cacheBytes (fun _ ↦ 0) 0xFFFFFFFF80500000 t (fourPages 0)) (fourPages 0)) =
        .ok 0x80604000 := by
    decide +kernel
  rcases hinit : kmInitialize zeroed fourPages with f | t
  · rw [hinit] at hrun
    simp [Except.map] at hrun
  · rw [hinit, Except.map, Except.ok.injEq] at hrun
    refine ⟨t, rfl, hrun, by decide, fun h ↦ ?_⟩
    have hfree : nodeLock (cacheBytes (fun _ ↦ 0) 0xFFFFFFFF80500000 t (fourPages 0))
        (fourPages 0) = 0 := h.lock
    rw [hrun] at hfree
    exact absurd hfree (by decide)

end CubikOS

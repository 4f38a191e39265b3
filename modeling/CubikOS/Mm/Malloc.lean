import CubikOS.Arch.Bitmap
import CubikOS.Arch.Paging
import CubikOS.Mm.Request

/-!
# Pages for the kernel

`AllocatePages` of `Kernel/src/mm/malloc.c`, for the kernel process: frames from the buddy
allocator, addresses from the bitmap, and a mapping of the one to the other.

The number of pages that are mapped is `page_size_align(amount)` and the order of the block they
are mapped to is `page_size_order` of that number, which never exceeds 10.  The two agree up to
1024 pages.
-/

set_option autoImplicit false

namespace CubikOS

open Buddy Loop

/-! ## The function -/

/-- What `AllocatePages(kernel, amount)` reads and writes besides the page tables. -/
structure Allocators where
  /-- The physical allocator. -/
  pm : PmState
  /-- The bitmap of the kernel process. -/
  marks : Words
  /-- Its `m_MemoryAllocated`, 64 bits. -/
  memoryAllocated : ℕ
  /-- Its `m_Pages`, 32 bits. -/
  pages : ℕ

/-- The memory management of the kernel. -/
abbrev Machine := Paging Allocators

/-- Replace the physical allocator. -/
def Paging.setPm (s : Machine) (pm : PmState) : Machine :=
  { s with rest := { s.rest with pm := pm } }

/-- Replace the bitmap. -/
def Paging.setMarks (s : Machine) (m : Words) : Machine :=
  { s with rest := { s.rest with marks := m } }

/-- Book `amount` pages to the process. -/
def Paging.charge (s : Machine) (amount : ℕ) : Machine :=
  { s with rest := { s.rest with
    memoryAllocated := (s.rest.memoryAllocated + amount * archPageSize) % 2 ^ 64
    pages := (s.rest.pages + amount) % 2 ^ 32 } }

@[simp] theorem Paging.charge_pointer (s : Machine) (amount : ℕ) :
    (s.charge amount).pointer = s.pointer := by
  simp only [Paging.charge]

@[simp] theorem Paging.charge_table (s : Machine) (amount : ℕ) :
    (s.charge amount).table = s.table := by
  simp only [Paging.charge]

/-- The flags `AllocatePages` maps pages of the kernel with. -/
def kernelFlags : ℕ := pageFlagPresent ||| pageFlagWritable ||| pageFlagUser

/-- The second half of `AllocatePages(kernel, amount)`: addresses for the frames from `phys` on, the
mapping, and the bookkeeping of the process.  `again` is `AllocatePages(kernel, 1)`, which
`MapVirtualAddress` calls for the pages that new page tables go to. -/
def mapFrames (again : Machine → Except Fault (ℕ × Machine)) (s : Machine) (phys amount : ℕ) :
    Except Fault (ℕ × Machine) :=
  let vm := vmAllocatePages chunkStart s.rest.marks amount
  match mapVirtualAddress again amount (s.setMarks vm.2) phys vm.1 kernelFlags with
  | .error f => .error f
  | .ok s => .ok (vm.1, s.charge amount)

/-- `AllocatePages(kernel, amount)` once `amount` has been rounded. -/
def allocateRounded (again : Machine → Except Fault (ℕ × Machine)) (s : Machine) (amount : ℕ) :
    Except Fault (ℕ × Machine) :=
  match pmAllocatePages s.rest.pm (pageSizeOrder amount) with
  | .error f => .error f
  | .ok (none, _) => .error .panic
  | .ok (some physPage, pm) => mapFrames again (s.setPm pm) (pm.page physPage).addr amount

/-- `AllocatePages(kernel, amount)`; the fuel bounds how deep the calls nest. -/
def allocatePages : ℕ → Machine → ℕ → Except Fault (ℕ × Machine)
  | 0, _, _ => .error .outOfFuel
  | fuel + 1, s, amount =>
    allocateRounded (fun s ↦ allocatePages fuel s 1) s (pageSizeAlign amount)

/-! ## How many pages, and of which order -/

/-- Up to 1024 pages the number of pages is rounded up to a power of two, and the order is the
exponent. -/
theorem pageSizeAlign_small {a : ℕ} (hpos : 1 ≤ a) (hle : a ≤ 1024) :
    a ≤ pageSizeAlign a ∧ pageSizeAlign a = 2 ^ pageSizeOrder (pageSizeAlign a) := by
  have horder : Nat.clog 2 a < 11 :=
    Nat.lt_succ_of_le ((Nat.clog_le_iff_le_pow (by decide)).mpr hle)
  rw [pageSizeAlign_eq hpos (by omega), pageSizeOrder_two_pow ⟨_, horder⟩]
  exact ⟨Nat.le_pow_clog (by decide) a, rfl⟩

/-- Above 1024 the number of pages stays above, unless it overflows. -/
theorem pageSizeAlign_large {a : ℕ} (hlarge : 1024 < a) (hlt : a < 2 ^ 64) :
    pageSizeAlign a = 0 ∨ 1024 < pageSizeAlign a := by
  obtain ⟨y, hsmeared, heq⟩ := pageSizeAlign_smeared (by omega) hlt
  have hle := hsmeared.le (by decide)
  have hmax := hsmeared.lt_two_pow (show a - 1 < 2 ^ 64 by omega)
  rw [heq]
  omega

theorem pageSizeOrder_large {a : ℕ} (hlarge : 1024 < a) : pageSizeOrder a = pageMaxOrder := by
  rw [pageSizeOrder, pageSizeOrderLoop, if_neg]
  dsimp only [pageMaxSize, archPageSize]; omega

/-! ## What is mapped to what -/

/-- The `n` pages from `virt` on are mapped to the frames from `phys` on. -/
def Maps (s : Machine) (phys virt n : ℕ) : Prop :=
  ∀ k, k < n → isPagePresent s (virt + archPageSize * k) = some true ∧
    convertVirtToPhys s (virt + archPageSize * k) = phys + archPageSize * k

/-- What is expected of a request for `amount` pages that is given the block `b`, `n` being the
number of pages that are mapped. -/
structure MapsOwnFrames (s : Machine) (b : Block) (virt n amount : ℕ) : Prop where
  /-- Every page is mapped. -/
  present : ∀ k, k < n → isPagePresent s (virt + archPageSize * k) = some true
  /-- Every page is mapped to a frame inside the block. -/
  inside : ∀ k, k < n → Set.Ico (convertVirtToPhys s (virt + archPageSize * k))
    (convertVirtToPhys s (virt + archPageSize * k) + archPageSize) ⊆ b.span archPageSize
  /-- No two pages are mapped to one frame. -/
  distinct : ∀ j k, j < n → k < n → convertVirtToPhys s (virt + archPageSize * j) =
    convertVirtToPhys s (virt + archPageSize * k) → j = k
  /-- There are enough of them. -/
  enough : amount ≤ n

/-- A call that returns was given a block. -/
theorem allocatePages_ok {fuel amount virt : ℕ} {s s' : Machine}
    (hrun : allocatePages fuel s amount = .ok (virt, s')) :
    ∃ p pm, pmAllocatePages s.rest.pm (pageSizeOrder (pageSizeAlign amount)) =
      .ok (some p, pm) := by
  rcases fuel with _ | fuel
  · simp [allocatePages] at hrun
  rw [allocatePages, allocateRounded] at hrun
  split at hrun
  · simp at hrun
  · simp at hrun
  · rename_i p pm hpm
    exact ⟨p, pm, hpm⟩

section Owned

variable {s : Machine} {b : Block} {virt n amount : ℕ}

/-- A mapping to as many frames as the block has. -/
theorem Maps.ownFrames (hmap : Maps s b.base virt n) (hn : n = 2 ^ b.order) (hle : amount ≤ n) :
    MapsOwnFrames s b virt n amount := by
  refine ⟨fun k hk ↦ (hmap k hk).1, fun k hk x hx ↦ ?_, fun j k hj hk h ↦ ?_, hle⟩
  · rw [(hmap k hk).2] at hx
    obtain ⟨h1, h2⟩ := hx
    rw [Block.mem_span, ← hn]
    dsimp only [archPageSize] at *; omega
  · rw [(hmap j hj).2, (hmap k hk).2] at h
    dsimp only [archPageSize] at *; omega

/-- A mapping to more frames than the block has. -/
theorem Maps.not_ownFrames (hmap : Maps s b.base virt n) (hn : 2 ^ b.order < n) :
    ¬ MapsOwnFrames s b virt n amount := by
  -- the page that comes first behind the block
  intro h
  have hmem := h.inside (2 ^ b.order) hn (a := b.base + archPageSize * 2 ^ b.order)
    (by rw [(hmap _ hn).2]; exact ⟨le_refl _, by dsimp only [archPageSize]; omega⟩)
  rw [Block.mem_span] at hmem
  omega

end Owned

/-- **Only frames of its own, up to 1024 pages.**  A call that returns was given a block; if the
mapping does what it is asked to, the pages are mapped to frames of that block, each to one of its
own, exactly when no more than 1024 pages were requested. -/
theorem allocatePages_owned_iff {fuel amount virt : ℕ} {s s' : Machine} {L : ListIndex → List ℕ}
    (hlists : FreeLists s.rest.pm L) (horder : ∀ k, ∀ p ∈ L k, (s.rest.pm.page p).order = k)
    (h1 : 1 ≤ amount) (hlt : amount < 2 ^ 64)
    (hrun : allocatePages fuel s amount = .ok (virt, s')) :
    ∃ p pm, pmAllocatePages s.rest.pm (pageSizeOrder (pageSizeAlign amount)) = .ok (some p, pm) ∧
      (Maps s' (pm.page p).addr virt (pageSizeAlign amount) →
        (MapsOwnFrames s' (pm.block p) virt (pageSizeAlign amount) amount ↔ amount ≤ 1024)) := by
  obtain ⟨p, pm, hpm⟩ := allocatePages_ok hrun
  refine ⟨p, pm, hpm, fun hmap ↦ ?_⟩
  obtain ⟨hblock, -⟩ := pmAllocatePages_any hpm fun k q hq ↦
    horder k q (mem_of_selectPage (hlists.chain k) hq)
  have hmap' : Maps s' (pm.block p).base virt (pageSizeAlign amount) := hmap
  constructor
  · intro hown
    by_contra hlarge
    refine hmap'.not_ownFrames ?_ hown
    rw [hblock]
    rcases pageSizeAlign_large (by omega) hlt with h0 | hbig
    · -- an overflow makes the order 255, and no block is returned
      rw [h0, pageSizeOrder_zero, pmAllocatePages, if_pos (by decide)] at hpm
      simp at hpm
    · rw [pageSizeOrder_large hbig]
      exact hbig
  · intro hsmall
    obtain ⟨hle, hpow⟩ := pageSizeAlign_small h1 hsmall
    exact hmap'.ownFrames (by rw [hblock]; exact hpow) hle

/-! ### A machine with room -/

/-- The tables of the topmost GiB but one are there, and every page of the bitmap is free. -/
def freshMachine (pm : PmState) : Machine where
  dir i j := ⟨decide ((i : ℕ) = 510), true, false, 0x200 + j⟩
  pointer i j := if (i : ℕ) = 510 then some (0xFFFFFFFF80200000 + archPageSize * j) else none
  table _ _ := ⟨false, false, false, 0⟩
  rest := ⟨pm, fun _ ↦ 0#64, 0, 0⟩

theorem ok_freshMachine (pm : PmState) : (freshMachine pm).Ok := by
  refine ⟨fun i j i' j' t h1 h2 ↦ ?_, fun i j h ↦ ?_⟩
  · rw [freshMachine] at h1 h2
    dsimp only at h1 h2
    split at h1
    · split at h2
      · rename_i hi hi'
        rw [Option.some.injEq] at h1 h2
        refine ⟨Fin.ext (hi.trans hi'.symm), Fin.ext ?_⟩
        dsimp only [archPageSize] at *; omega
      · simp at h2
    · simp at h1
  · have hi : (i : ℕ) = 510 := by simpa [freshMachine] using h
    simp [freshMachine, hi]

theorem vmGetPage_freshMachine {pm : PmState} {s : Machine}
    (hs : s.pointer = (freshMachine pm).pointer) {x : ℕ} (hx : x < chunkPages) :
    vmGetPage s (kernelVirtualBase + archPageSize * x) ≠ none := by
  have hk : InKernel (kernelVirtualBase + archPageSize * x) := by
    refine ⟨?_, ?_⟩ <;>
    · dsimp only [kernelVirtualBase, kernelAddrSpace, archPageSize, chunkPages] at *; omega
  have hpdpt : pdptGetIndex (kernelVirtualBase + archPageSize * x) = 510 := by
    rw [pdptGetIndex, ← Fin.val_inj, tableIndex_val]
    dsimp only [kernelVirtualBase, archPageSize, chunkPages] at *
    omega
  have hpointer : ∀ j, (freshMachine pm).pointer 510 j =
      some (0xFFFFFFFF80200000 + archPageSize * j) := fun j ↦ by simp [freshMachine]
  rw [vmGetPage, if_pos hk.pml4GetIndex, hs, hpdpt, hpointer]
  simp

/-- A mapping that succeeds is what the call leaves behind. -/
theorem mapFrames_ok {again : Machine → Except Fault (ℕ × Machine)} {s u : Machine}
    {phys n virt : ℕ} {m : Words} (hvm : vmAllocatePages chunkStart s.rest.marks n = (virt, m))
    (hmap : mapVirtualAddress again n (s.setMarks m) phys virt kernelFlags = .ok u) :
    mapFrames again s phys n = .ok (virt, u.charge n) := by
  rw [mapFrames, hvm]
  simp only [hmap]

/-- The addresses of pages of the first chunk. -/
theorem chunk_range {v n : ℕ} (h : v + n ≤ chunkPages) :
    archPageSize ∣ kernelVirtualBase + v * archPageSize ∧
    kernelAddrSpace ≤ kernelVirtualBase + v * archPageSize ∧
    kernelVirtualBase + v * archPageSize + n * archPageSize ≤ 2 ^ 64 ∧
    ∀ k, k < n → kernelVirtualBase + v * archPageSize + archPageSize * k =
        kernelVirtualBase + archPageSize * (v + k) ∧
      InKernel (kernelVirtualBase + v * archPageSize + archPageSize * k) ∧
      (kernelVirtualBase + v * archPageSize + archPageSize * k) % archPageSize = 0 := by
  simp only [InKernel]
  dsimp only [kernelVirtualBase, kernelAddrSpace, archPageSize, chunkPages] at *
  refine ⟨by omega, by omega, by omega, fun k hk ↦ ⟨by omega, ⟨by omega, by omega⟩, by omega⟩⟩

theorem frame_lt {phys n k : ℕ} (h : phys + n * archPageSize ≤ 2 ^ 48) (hk : k < n) :
    phys + archPageSize * k < 2 ^ 48 := by
  dsimp only [archPageSize] at *; omega

/-- On such a machine a request for no more than 2048 pages is met, if there is a block for it. -/
theorem allocatePages_freshMachine {pm pm' : PmState} {p amount : ℕ}
    (hpm : pmAllocatePages pm (pageSizeOrder (pageSizeAlign amount)) = .ok (some p, pm'))
    (h1 : 1 ≤ pageSizeAlign amount) (h2 : pageSizeAlign amount ≤ 2048)
    (hal : archPageSize ∣ (pm'.page p).addr)
    (hbound : (pm'.page p).addr + 2048 * archPageSize ≤ 2 ^ 48) :
    ∃ virt s', allocatePages 1 (freshMachine pm) amount = .ok (virt, s') ∧
      Maps s' (pm'.page p).addr virt (pageSizeAlign amount) := by
  rw [allocatePages, allocateRounded]
  generalize pageSizeAlign amount = n at *
  have hpm' : pmAllocatePages (freshMachine pm).rest.pm (pageSizeOrder n) = .ok (some p, pm') := hpm
  rw [hpm']
  dsimp only
  generalize (pm'.page p).addr = phys at *
  have hphys : phys + n * archPageSize ≤ 2 ^ 48 :=
    (Nat.add_le_add_left (Nat.mul_le_mul_right _ h2) _).trans hbound
  -- every page of the bitmap is free, so the addresses are in the first chunk
  obtain ⟨v, hv, hvend⟩ := vmAllocatePages_finds (m := fun _ ↦ 0#64) (p := 1) h1 (by omega)
    (Or.inl (by decide)) (by dsimp only [chunkPages]; omega) (fun x _ _ ↦ BitVec.zero_and)
    (fun w _ h ↦ absurd (show 0#64 = BitVec.allOnes 64 from h) (by decide))
  rcases hvm : vmAllocatePages chunkStart (fun _ ↦ 0#64) n with ⟨virt, m⟩
  rw [hvm] at hv
  dsimp only at hv
  obtain ⟨hdvd, hlow, hhigh, hpage⟩ := chunk_range hvend
  rw [← hv] at hdvd hlow hhigh hpage
  have hret : ∃ u, mapVirtualAddress (fun s ↦ allocatePages 0 s 1) n
      (((freshMachine pm).setPm pm').setMarks m) phys virt kernelFlags = .ok u := by
    refine (mapVirtualAddress_of_tables (fun _ ↦ hlow) hhigh fun k hk ↦ ?_).imp fun u h ↦ h.1
    rw [(hpage k hk).1]
    exact vmGetPage_freshMachine
      (show (((freshMachine pm).setPm pm').setMarks m).pointer = (freshMachine pm).pointer from rfl)
      (by omega)
  obtain ⟨u, hu⟩ := hret
  have hok : (((freshMachine pm).setPm pm').setMarks m).Ok :=
    ⟨(ok_freshMachine pm).distinct, (ok_freshMachine pm).complete⟩
  have hpages : ∀ k, k < n → virt / archPageSize + k ∈ pagesOf virt n := fun k hk ↦ ⟨k, hk, rfl⟩
  obtain ⟨-, hentry, -⟩ := mapVirtualAddress_spec hok hdvd (fun _ ↦ hlow) hhigh
    (hphys.trans (by decide)) hpages (fun w t w' _ h ↦ by simp [allocatePages] at h) hu
  refine ⟨virt, u.charge n, mapFrames_ok (s := (freshMachine pm).setPm pm') hvm hu,
    fun k hk ↦ ?_⟩
  have hentry' : (u.charge n).entry (virt + archPageSize * k) =
      some (mapEntry (phys + archPageSize * k) kernelFlags) :=
    (entry_eq_of_pointer (by rw [Paging.charge_pointer]) (Paging.charge_table u n)).trans
      (hentry k hk)
  obtain ⟨hpresent, hconvert⟩ := translate_of_mapEntry (hpage k hk).2.1 hentry'
    (Nat.dvd_add hal (Nat.dvd_mul_right _ _)) (frame_lt hphys hk)
  rw [(hpage k hk).2.2] at hconvert
  exact ⟨hpresent, hconvert⟩

/-- One page, and a block of one frame for it. -/
theorem allocatePages_owned_iff_oneFrame : ∃ virt s' p pm,
    allocatePages 1 (freshMachine oneFrame) 1 = .ok (virt, s') ∧
      pmAllocatePages oneFrame (pageSizeOrder (pageSizeAlign 1)) = .ok (some p, pm) ∧
      MapsOwnFrames s' (pm.block p) virt (pageSizeAlign 1) 1 := by
  obtain ⟨pm, hpm, -, hself, -⟩ := alloc_oneFrame
  have hpm' : pmAllocatePages oneFrame (pageSizeOrder (pageSizeAlign 1)) =
      .ok (some (pageSlot pageMaxSize), pm) := hpm
  obtain ⟨virt, s', hrun, hmap⟩ := allocatePages_freshMachine hpm' (by decide) (by decide)
    (by rw [hself]; decide) (by rw [hself]; decide)
  obtain ⟨q, pm₁, hq, hiff⟩ := allocatePages_owned_iff (s := freshMachine oneFrame)
    wellFormed_oneFrame.lists wellFormed_oneFrame.order (le_refl 1) (by decide) hrun
  have hsame : pmAllocatePages oneFrame (pageSizeOrder (pageSizeAlign 1)) = .ok (some q, pm₁) := hq
  rw [hpm', Except.ok.injEq, Prod.mk.injEq, Option.some.injEq] at hsame
  obtain ⟨rfl, rfl⟩ := hsame
  exact ⟨virt, s', _, pm, hrun, hpm', (hiff hmap).mpr (by decide)⟩

/-- **More pages than frames**: 1025 pages are rounded to 2048, and the largest block has 1024
frames. -/
theorem allocatePages_foreign_frames : ∃ virt s' p pm,
    allocatePages 1 (freshMachine oneBlock) 1025 = .ok (virt, s') ∧
      pmAllocatePages oneBlock (pageSizeOrder (pageSizeAlign 1025)) = .ok (some p, pm) ∧
      Maps s' (pm.page p).addr virt (pageSizeAlign 1025) ∧
      ¬ MapsOwnFrames s' (pm.block p) virt (pageSizeAlign 1025) 1025 := by
  have hsel : selectList oneBlock (pageMaxOrder + 1) 10 = some 10 := by decide
  obtain ⟨pm, L', hpm, hT, -⟩ := pmAllocatePages_eq wellFormed_oneBlock.sound (le_refl pageMaxOrder)
    hsel (show singleLists 10 (pageSlot pageMaxSize) 10 = [_] from rfl)
  have hblock : pm.block (pageSlot pageMaxSize) = ⟨pageMaxSize, 10⟩ := by
    rw [hT.block_self]
    simp [oneBlock, singleState, blockPages]
  have haddr : (pm.page (pageSlot pageMaxSize)).addr = pageMaxSize := congrArg Block.base hblock
  have hpm' : pmAllocatePages oneBlock (pageSizeOrder (pageSizeAlign 1025)) =
      .ok (some (pageSlot pageMaxSize), pm) := hpm
  obtain ⟨virt, s', hrun, hmap⟩ := allocatePages_freshMachine hpm' (by decide) (by decide)
    (by rw [haddr]; decide) (by rw [haddr]; decide)
  refine ⟨virt, s', _, pm, hrun, hpm', hmap, Maps.not_ownFrames hmap ?_⟩
  rw [hblock]
  decide

/-! ## When no addresses are left -/

/-- What is expected of a request for which there are no addresses: it returns 0, and everything is
as before. -/
def FailsCleanly (s : Machine) (result : Except Fault (ℕ × Machine)) : Prop := result = .ok (0, s)

/-- The first address whose topmost index is that of the kernel. -/
def firstTopmost : ℕ := 0xFF8000000000

/-- `MapVirtualAddress` on a processor that an interrupt wakes from each `hlt`: the page is passed
over. -/
def mapVirtualAddressWoken (again : Machine → Except Fault (ℕ × Machine)) :
    ℕ → Machine → ℕ → ℕ → ℕ → Except Fault Machine
  | 0, s, _, _, _ => .ok s
  | amount + 1, s, phys, virt, flags =>
    if pml4GetIndex virt = topmost then
      match findEntry again s virt flags with
      | .error f => .error f
      | .ok (page, s) =>
        mapVirtualAddressWoken again amount (s.setEntry page (mapEntry phys flags))
          ((phys + archPageSize) % 2 ^ 64) ((virt + archPageSize) % 2 ^ 64) flags
    else
      mapVirtualAddressWoken again amount s
        ((phys + archPageSize) % 2 ^ 64) ((virt + archPageSize) % 2 ^ 64) flags

/-- The second half of `AllocatePages(kernel, amount)` on such a processor. -/
def mapFramesWoken (again : Machine → Except Fault (ℕ × Machine)) (s : Machine) (phys amount : ℕ) :
    Except Fault (ℕ × Machine) :=
  let vm := vmAllocatePages chunkStart s.rest.marks amount
  match mapVirtualAddressWoken again amount (s.setMarks vm.2) phys vm.1 kernelFlags with
  | .error f => .error f
  | .ok s => .ok (vm.1, s.charge amount)

/-- `AllocatePages(kernel, amount)` on such a processor, once `amount` has been rounded. -/
def allocateRoundedWoken (again : Machine → Except Fault (ℕ × Machine)) (s : Machine)
    (amount : ℕ) : Except Fault (ℕ × Machine) :=
  match pmAllocatePages s.rest.pm (pageSizeOrder amount) with
  | .error f => .error f
  | .ok (none, _) => .error .panic
  | .ok (some physPage, pm) => mapFramesWoken again (s.setPm pm) (pm.page physPage).addr amount

/-- `AllocatePages(kernel, amount)` on such a processor. -/
def allocatePagesWoken (again : Machine → Except Fault (ℕ × Machine)) (s : Machine) (amount : ℕ) :
    Except Fault (ℕ × Machine) :=
  allocateRoundedWoken again s (pageSizeAlign amount)

section NoAddresses

variable {again : Machine → Except Fault (ℕ × Machine)} {s : Machine} {n phys virt amount : ℕ}

/-- Address 0 does not belong to the kernel. -/
theorem mapVirtualAddress_zero {flags : ℕ} (hn : n ≠ 0) :
    mapVirtualAddress again n s phys 0 flags = .error .halt := by
  obtain ⟨n, rfl⟩ := Nat.exists_eq_succ_of_ne_zero hn
  rw [mapVirtualAddress, if_neg (by decide)]

/-- So there is no mapping when there are no addresses. -/
theorem mapFrames_halt {pm : PmState} (hnone : (vmAllocatePages chunkStart s.rest.marks n).1 = 0)
    (hn : n ≠ 0) : mapFrames again (s.setPm pm) phys n = .error .halt := by
  have hmarks : (s.setPm pm).rest.marks = s.rest.marks := rfl
  rw [mapFrames, hmarks]
  simp only [hnone, mapVirtualAddress_zero hn]

/-- Nor does any address before the first one with the kernel's index. -/
theorem mapVirtualAddressWoken_low {flags : ℕ} (h : virt + n * archPageSize ≤ firstTopmost) :
    mapVirtualAddressWoken again n s phys virt flags = .ok s := by
  induction n generalizing phys virt with
  | zero => rfl
  | succ n ih =>
    rw [firstTopmost] at h ih
    dsimp only [archPageSize] at h
    have hnext : (virt + archPageSize) % 2 ^ 64 = virt + archPageSize :=
      Nat.mod_eq_of_lt (by dsimp only [archPageSize]; omega)
    have hindex : pml4GetIndex virt ≠ topmost := by
      rw [pml4GetIndex, Ne, ← Fin.val_inj, tableIndex_val]
      show ¬ virt / 2 ^ 39 % 512 = 511
      omega
    rw [mapVirtualAddressWoken, if_neg hindex, hnext]
    exact ih (by dsimp only [archPageSize]; omega)

theorem mapFramesWoken_eq {pm : PmState}
    (hnone : (vmAllocatePages chunkStart s.rest.marks n).1 = 0)
    (hn : n * archPageSize ≤ firstTopmost) : mapFramesWoken again (s.setPm pm) phys n =
      .ok (0, ((s.setPm pm).setMarks
        (vmAllocatePages chunkStart s.rest.marks n).2).charge n) := by
  have hmarks : (s.setPm pm).rest.marks = s.rest.marks := rfl
  have hlow : 0 + n * archPageSize ≤ firstTopmost := by rwa [Nat.zero_add]
  rw [mapFramesWoken, hmarks]
  simp only [hnone, mapVirtualAddressWoken_low hlow]

theorem allocateRoundedWoken_ok {r : ℕ × Machine}
    (h : allocateRoundedWoken again s amount = .ok r) :
    ∃ p pm, pmAllocatePages s.rest.pm (pageSizeOrder amount) = .ok (some p, pm) ∧
      mapFramesWoken again (s.setPm pm) (pm.page p).addr amount = .ok r := by
  rw [allocateRoundedWoken] at h
  split at h
  · simp at h
  · simp at h
  · rename_i p pm hpm
    exact ⟨p, pm, hpm, h⟩

/-- A block is given only for a number of pages that did not overflow. -/
theorem pmAllocatePages_ne_zero {pm pm' : PmState} {p : ℕ}
    (h : pmAllocatePages pm (pageSizeOrder n) = .ok (some p, pm')) : n ≠ 0 := by
  rintro rfl
  rw [pageSizeOrder_zero, pmAllocatePages, if_pos (by decide)] at h
  simp at h

/-- The bookkeeping of the process has changed. -/
theorem charge_setMarks_setPm_ne {pm : PmState} {m : Words} (h0 : n ≠ 0)
    (hn : n * archPageSize ≤ firstTopmost) : ((s.setPm pm).setMarks m).charge n ≠ s := by
  intro h
  have hmem : (s.rest.memoryAllocated + n * archPageSize) % 2 ^ 64 = s.rest.memoryAllocated :=
    congrArg (fun u : Machine ↦ u.rest.memoryAllocated) h
  rw [firstTopmost] at hn
  dsimp only [archPageSize] at *
  omega

/-- **A request for which there are no addresses never fails cleanly.**  It does not return: it
panics when there is no block either, and otherwise halts in `MapVirtualAddress`, the block being
taken.  Where an interrupt ends the halt it returns 0, the block is lost, and the pages are booked
to the process. -/
theorem allocatePages_no_addresses (fuel : ℕ)
    (hnone : (vmAllocatePages chunkStart s.rest.marks (pageSizeAlign amount)).1 = 0) :
    (∀ r, allocatePages fuel s amount ≠ .ok r) ∧
    ¬ FailsCleanly s (allocatePages fuel s amount) ∧
    (pageSizeAlign amount * archPageSize ≤ firstTopmost →
      ¬ FailsCleanly s (allocatePagesWoken again s amount)) := by
  have hnever : ∀ r, allocatePages fuel s amount ≠ .ok r := by
    intro r h
    rcases fuel with _ | fuel
    · simp [allocatePages] at h
    rw [allocatePages, allocateRounded] at h
    split at h
    · simp at h
    · simp at h
    · rename_i p pm hpm
      rw [mapFrames_halt hnone (pmAllocatePages_ne_zero hpm)] at h
      simp at h
  refine ⟨hnever, hnever _, fun hbound h ↦ ?_⟩
  obtain ⟨p, pm, hpm, hmap⟩ := allocateRoundedWoken_ok h
  rw [mapFramesWoken_eq hnone hbound, Except.ok.injEq, Prod.mk.injEq] at hmap
  exact charge_setMarks_setPm_ne (pmAllocatePages_ne_zero hpm) hbound hmap.2

end NoAddresses

/-- The machine above with every page marked. -/
def fullMachine (pm : PmState) : Machine :=
  (freshMachine pm).setMarks fun _ ↦ BitVec.allOnes 64

theorem vmAllocatePages_full (n : ℕ) :
    (vmAllocatePages chunkStart (fun _ ↦ BitVec.allOnes 64) n).1 = 0 := by
  obtain ⟨st, hst, -⟩ := forRange_eq_ok (n := 8192) (P := fun _ _ ↦ True) (s := ⟨0, 0⟩)
    (f := wordStep (fun _ ↦ BitVec.allOnes 64) n) trivial
    fun w _ st _ ↦ ⟨st, by rw [wordStep, scanWord, if_pos rfl], trivial⟩
  unfold vmAllocatePages
  rw [scanMarks_eq, hst]

theorem noAddresses_fullMachine (pm : PmState) (n : ℕ) :
    (vmAllocatePages chunkStart (fullMachine pm).rest.marks n).1 = 0 := by
  have hmarks : (fullMachine pm).rest.marks = fun _ ↦ BitVec.allOnes 64 := rfl
  rw [hmarks]
  exact vmAllocatePages_full n

/-- **A block is lost**: there is one for the page, and no address. -/
theorem allocatePages_halts : (∃ p pm, pmAllocatePages (fullMachine oneFrame).rest.pm
      (pageSizeOrder (pageSizeAlign 1)) = .ok (some p, pm)) ∧
    (vmAllocatePages chunkStart (fullMachine oneFrame).rest.marks (pageSizeAlign 1)).1 = 0 ∧
    allocatePages 1 (fullMachine oneFrame) 1 = .error .halt ∧
    ¬ FailsCleanly (fullMachine oneFrame) (allocatePages 1 (fullMachine oneFrame) 1) := by
  obtain ⟨pm, hpm, -⟩ := alloc_oneFrame
  have hpm' : pmAllocatePages (fullMachine oneFrame).rest.pm (pageSizeOrder (pageSizeAlign 1)) =
      .ok (some (pageSlot pageMaxSize), pm) := hpm
  have hnone := noAddresses_fullMachine oneFrame (pageSizeAlign 1)
  have hhalt : allocatePages 1 (fullMachine oneFrame) 1 = .error .halt := by
    rw [allocatePages, allocateRounded, hpm']
    exact mapFrames_halt hnone (by decide)
  refine ⟨⟨_, pm, hpm'⟩, hnone, hhalt, ?_⟩
  rw [FailsCleanly, hhalt]
  simp

/-- The general statement, there. -/
theorem allocatePages_no_addresses_full :
    (vmAllocatePages chunkStart (fullMachine oneFrame).rest.marks (pageSizeAlign 1)).1 = 0 ∧
    ¬ FailsCleanly (fullMachine oneFrame)
      (allocatePagesWoken (fun s ↦ allocatePages 0 s 1) (fullMachine oneFrame) 1) := by
  have hnone := noAddresses_fullMachine oneFrame (pageSizeAlign 1)
  exact ⟨hnone, (allocatePages_no_addresses 1 hnone).2.2 (by decide)⟩

end CubikOS

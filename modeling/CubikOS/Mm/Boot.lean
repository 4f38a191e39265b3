import CubikOS.Mm.Initialize
import CubikOS.Mm.Lifetime
import CubikOS.Mm.LoadZone
import CubikOS.Mm.Capacity
import CubikOS.Mm.Nested

/-!
# From the memory map to the first page

The boot loader's memory map goes through `ParseStivale2Info` and `MemoryInitialize` to
`PM_LoadZoneRange`, which loads the physical allocator block by block, and needs pages of it for the
descriptors and the page tables while it does.  Here the whole way is taken: from empty lists and
descriptors that are zero to whatever `PM_AllocatePages` returns afterwards.

* `Loading s B` is what the allocator is like when the blocks `B` have been loaded, and
  `Loading.allocate` and `Loading.write` are the two things that happen to it.
* `loadBlock_loading` says that loading one more block is made up of those, whatever page tables
  are made on the way; `zoneLoop_loading`, `pmLoadZoneRange_loading` and `loadZones_loading` go from
  one block to all ranges.
* `boot_hands_out_usable`: what is handed out after the boot are usable frames of the memory map.
-/

set_option autoImplicit false

namespace CubikOS

open Intrusive Buddy

/-! ## Descriptors that are not used yet -/

section Untouched

variable {s s' : PmState} {L L' : ListIndex → List ℕ} {T : Set ℕ} {m : ListIndex}
  {front rest : List ℕ} {p order : ℕ}

/-- The split loop leaves the links of every descriptor alone that is on no list and is none of the
new upper halves. -/
theorem expandLoop_links {o n y : ℕ} (hD : Detached s L m front rest p)
    (hB : Blocks s (insert p (Listed L)) T) (ho : (s.page p).order = o) (hn : n ≤ o)
    (hmax : o ≤ pageMaxOrder) (hy : y ∉ Listed L) (hyp : ∀ j, j < o → y ≠ p + 2 ^ j) :
    ∃ s', expandLoop n s p = .ok (p, s') ∧ s'.links (.frame y) = s.links (.frame y) := by
  induction n generalizing s L front o with
  | zero => exact ⟨s, rfl, rfl⟩
  | succ n ih =>
    obtain ⟨o, rfl⟩ : ∃ o', o = o' + 1 := ⟨o - 1, by omega⟩
    have h : o < pageMaxOrder + 1 := by omega
    have hb := hB.block p (Set.mem_insert _ _)
    have hself : ((expandState s p o h).page p).order = o := by rw [expandState_page_self]
    have hlinks := hD.expandState_links_frame (h := h) hb ho hy (hyp o (by omega))
    have hy' : y ∉ Listed (expandLists L m rest ⟨o, h⟩ (p + 2 ^ o)) := fun hmem ↦
      (listed_expandLists_subset hD.split hmem).elim (hyp o (by omega)) hy
    obtain ⟨s', hrun, hsame⟩ := ih (hD.expand (h := h) hb ho) (hD.blocks_expand hB ho) hself
      (by omega) (by omega) hy' fun j hj ↦ hyp j (by omega)
    refine ⟨s', ?_, hsame.trans hlinks⟩
    rw [expandLoop, pmExpandPage_succ ho h]
    exact hrun

/-- **Zero-filled descriptors are left alone** by a call that returns a block. -/
theorem Took.zeroFilled (hS : Sound s L T) (hT : Took s s' L L' m rest p (m - order))
    (hrun : pmAllocatePages s order = .ok (some p, s'))
    (hsel : selectList s (pageMaxOrder + 1) order = some m) {pages : ℕ}
    (hzero : ZeroFilled s pages) : ZeroFilled s' pages := by
  have hp := hT.listed
  obtain ⟨ho1, ho2⟩ := hS.order m p (by simp [hT.pop])
  -- the slots of the block are not among them
  have hout : ∀ i, i < 1024 → ∀ j, j < 2 ^ (s.page p).order → p + j ≠ pages + i :=
    fun i hi j hj ↦ hS.notMem_zeroFilled hzero hp hj hi
  have hself : ∀ i, i < 1024 → pages + i ≠ p := fun i hi heq ↦
    hout i hi 0 (Nat.two_pow_pos _) (by omega)
  have hupper : ∀ i, i < 1024 → ∀ j, j < (s.page p).order → pages + i ≠ p + 2 ^ j :=
    fun i hi j hj heq ↦ hout i hi (2 ^ j) (Nat.pow_lt_pow_right (by omega) hj) heq.symm
  intro i hi
  obtain ⟨hpage, hlink⟩ := hzero i hi
  refine ⟨?_, ?_⟩
  · rw [hT.page_of_ne _ (hself i hi) fun j _ hj ↦ hupper i hi j hj, hpage]
  · have hnot := hS.lists.notMem_of_null hlink
    have hD := hS.detached hT.pop
    have hnot' : pages + i ∉ Listed (Function.update L m rest) := fun hmem ↦
      hnot (Sound.listed_pop hT.pop (Set.mem_insert_of_mem _ hmem))
    have ho' : ((popState s m p).page p).order = (s.page p).order := rfl
    obtain ⟨s₁, hloop, hsame⟩ := expandLoop_links (n := m - order) hD (hS.blocks_pop hT.pop) ho'
      (by omega) ho2 hnot' (hupper i hi)
    have horder : ¬ order > pageMaxOrder := fun hgt ↦ by
      rw [pmAllocatePages, if_pos hgt] at hrun
      simp at hrun
    rw [pmAllocatePages, if_neg horder, hsel] at hrun
    simp only [hS.selectPage hT.pop] at hrun
    rw [popState, PmState.setCount, PmState.setLinks] at hloop
    simp only [PmState.setCount, PmState.setLinks] at hrun
    rw [hloop] at hrun
    simp only [Except.ok.injEq, Prod.mk.injEq, true_and] at hrun
    rw [← hrun, PmState.setPage_links, hsame]
    exact (hS.lists.unlink_frame hp hnot).trans hlink

/-- Writing the descriptors of one block leaves those of another alone. -/
theorem ZeroFilled.writePages (hS : Sound s L T) {pages pages' address : ℕ}
    (hzero : ZeroFilled s pages) (hzero' : ZeroFilled s pages')
    (hne : ∀ i j, i < 1024 → j < 1024 → pages + i ≠ pages' + j) :
    ZeroFilled (writePages s pages' address) pages := by
  intro i hi
  obtain ⟨hpage, hlink⟩ := hzero i hi
  refine ⟨?_, ?_⟩
  · rw [writePages_page_of_notMem fun j hj ↦ hne i j hi hj, hpage]
  · rw [writePages_links hzero']
    have hself : Node.frame (pages + i) ≠ .frame pages' := fun heq ↦
      hne i 0 hi (by omega) (Node.frame.inj heq)
    -- the first node of list 9 has a `prev` link
    have hfirst : (s.links (.handle zoneList)).next ≠ some (.frame (pages + i)) := by
      rw [(hS.lists.chain zoneList).next_head]
      intro hhead
      obtain ⟨q, hq, hqp⟩ := List.mem_map.mp (List.mem_of_head? hhead)
      exact hS.lists.notMem_of_null hlink ⟨zoneList, (Node.frame.inj hqp) ▸ hq⟩
    refine Link.ext ?_ ?_
    · rw [Heap.linkAfter_prev, if_neg hfirst, if_neg hself, hlink]
    · rw [Heap.linkAfter_next, if_neg (by simp), if_neg hself, hlink]

end Untouched

/-! ## The allocator while it is loaded -/

/-- The end of the memory whose descriptors lie below the addresses that `VM_AllocatePages` hands
out. -/
def descriptorLimit : ℕ := (kernelVirtualBase - kernelPhysicalPages) / pageframeSize * archPageSize

/-- A block that can be loaded. -/
def Loadable (b : ℕ) : Prop := pageMaxSize ∣ b ∧ b + pageMaxSize ≤ descriptorLimit

/-- The allocator when the blocks `B` have been loaded and requests were for at most 128 frames. -/
structure Loading (s : PmState) (B : List ℕ) : Prop where
  /-- The allocator keeps the invariant of such runs. -/
  zone : ∃ L R, ZoneInv s L B R
  /-- The blocks can be loaded. -/
  blocks : ∀ b ∈ B, Loadable b
  /-- None was loaded twice. -/
  nodup : B.Nodup
  /-- The descriptors of the other blocks are zero. -/
  untouched : ∀ b, Loadable b → b ∉ B → ZeroFilled s (castPage (descriptorsAddr b))
  /-- Before the first block all descriptors are. -/
  start : B = [] → ∀ pages, ZeroFilled s pages

section Loading

variable {s s' : PmState} {B : List ℕ}

theorem Loading.boot (hboot : s.Boot) (hzero : ∀ pages, ZeroFilled s pages) : Loading s [] where
  zone := ⟨_, _, ZoneInv.boot hboot⟩
  blocks := by simp
  nodup := List.nodup_nil
  untouched _ _ _ := hzero _
  start _ := hzero

/-- A call for at most 128 frames, whatever it returns. -/
theorem Loading.allocate (h : Loading s B) {order : ℕ} {p : Option ℕ} (horder : order ≤ 7)
    (hcall : pmAllocatePages s order = .ok (p, s')) : Loading s' B := by
  rcases p with _ | p
  · rwa [pmAllocatePages_none hcall]
  obtain ⟨L, R, hI⟩ := h.zone
  obtain ⟨m, rest, L', hle, hcount, hfirst, hT, -⟩ := pmAllocatePages_some hI.inv.sound hcall
  have hsel : selectList s (pageMaxOrder + 1) order = some m :=
    selectList_of_first hle (by omega) hcount hfirst
  obtain ⟨L'', -, -, hI', -⟩ := hI.alloc horder hcall
  exact ⟨⟨_, _, hI'⟩, h.blocks, h.nodup,
    fun b hb hnot ↦ hT.zeroFilled hI.inv.sound hcall hsel (h.untouched b hb hnot),
    fun hB pages ↦ hT.zeroFilled hI.inv.sound hcall hsel (h.start hB pages)⟩

/-- A new block, its descriptors going to slots that are none of another block's. -/
theorem Loading.write (h : Loading s B) {pages address : ℕ} (hzero : ZeroFilled s pages)
    (hb : Loadable address) (hnew : address ∉ B)
    (hslots : ∀ b, Loadable b → b ≠ address → ∀ i j, i < 1024 → j < 1024 →
      castPage (descriptorsAddr b) + i ≠ pages + j) :
    Loading (writePages s pages address) (address :: B) := by
  obtain ⟨L, R, hI⟩ := h.zone
  have hlt : address < 2 ^ 64 := by
    have h1 := hb.2
    have h2 : descriptorLimit ≤ 2 ^ 64 := by decide
    have h3 : 0 < pageMaxSize := by decide
    omega
  refine ⟨⟨_, _, hI.insert hzero hb.1 hlt hnew⟩, fun b hb' ↦ ?_,
    List.nodup_cons.mpr ⟨hnew, h.nodup⟩, fun b hb' hnot ↦ ?_, fun hB ↦ by simp at hB⟩
  · rcases List.mem_cons.mp hb' with rfl | hb'
    · exact hb
    · exact h.blocks b hb'
  · rw [List.mem_cons, not_or] at hnot
    exact (h.untouched b hb' hnot.2).writePages hI.inv.sound hzero (hslots b hb' hnot.1)

theorem Loading.length_lt (h : Loading s B) : B.length < 2 ^ 32 := by
  -- the blocks have different numbers, and those are small
  have hinj : (B.map (· / pageMaxSize)).Nodup := by
    refine List.Nodup.map_on (fun a ha b hb heq ↦ ?_) h.nodup
    obtain ⟨i, rfl⟩ := (h.blocks a ha).1
    obtain ⟨j, rfl⟩ := (h.blocks b hb).1
    dsimp only [pageMaxSize] at *
    omega
  have hsub : (B.map (· / pageMaxSize)).toFinset ⊆ Finset.range (2 ^ 32 - 1) := by
    intro x hx
    obtain ⟨b, hb, rfl⟩ := List.mem_map.mp (List.mem_toFinset.mp hx)
    have hle := (h.blocks b hb).2
    have hlimit : descriptorLimit = 0x1FE000000000 := by decide
    rw [hlimit] at hle
    rw [Finset.mem_range]
    dsimp only [pageMaxSize] at *
    omega
  have hcard := Finset.card_le_card hsub
  rw [List.toFinset_card_of_nodup hinj, List.length_map, Finset.card_range] at hcard
  exact lt_of_le_of_lt hcard (by decide)

/-- Once a block is loaded, a call for at most 128 frames does not return `NULL`. -/
theorem Loading.eq_nil_of_none (h : Loading s B) {order : ℕ} (horder : order ≤ 7)
    (hcall : pmAllocatePages s order = .ok (none, s')) : B = [] := by
  obtain ⟨L, R, hI⟩ := h.zone
  rcases hI.next horder h.length_lt with ⟨-, p, s₁, hsome⟩ | ⟨-, hnext⟩
  · rw [hsome] at hcall
    simp at hcall
  · by_contra hB
    rw [hcall, if_neg hB] at hnext
    simp at hnext

end Loading

/-! ## Where the descriptors go -/

/-- The descriptors of loadable blocks lie below the addresses that are handed out. -/
theorem descriptorsAddr_eq {b : ℕ} (hb : Loadable b) :
    descriptorsAddr b = kernelPhysicalPages + b / archPageSize * pageframeSize ∧
      descriptorsAddr b + 1024 * pageframeSize ≤ kernelVirtualBase := by
  obtain ⟨⟨c, rfl⟩, hle⟩ := hb
  have hlimit : descriptorLimit = 0x1FE000000000 := by decide
  rw [hlimit] at hle
  rw [descriptorsAddr]
  dsimp only [pageMaxSize, kernelPhysicalPages, archPageSize, pageframeSize, kernelVirtualBase] at *
  omega

theorem slots_apart {b b' : ℕ} (hb : Loadable b) (hb' : Loadable b') (hne : b ≠ b') {i j : ℕ}
    (hi : i < 1024) (hj : j < 1024) :
    castPage (descriptorsAddr b) + i ≠ castPage (descriptorsAddr b') + j := by
  rw [(descriptorsAddr_eq hb).1, (descriptorsAddr_eq hb').1]
  obtain ⟨⟨c, rfl⟩, -⟩ := hb
  obtain ⟨⟨d, rfl⟩, -⟩ := hb'
  rw [castPage, castPage]
  dsimp only [pageMaxSize, kernelPhysicalPages, archPageSize, pageframeSize] at *
  omega

theorem slots_below {b virt : ℕ} (hb : Loadable b) (hvirt : kernelVirtualBase ≤ virt) {i j : ℕ}
    (hi : i < 1024) : castPage (descriptorsAddr b) + i ≠ castPage virt + j := by
  have hle := (descriptorsAddr_eq hb).2
  rw [castPage, castPage]
  dsimp only [pageframeSize, kernelVirtualBase] at *
  omega

/-! ## Through the page tables -/

section Rest

variable {ρ : Type} {again : Paging ρ → Except Fault (ℕ × Paging ρ)} {R : ρ → ρ → Prop}
  {s s' : Paging ρ} {virt phys flags : ℕ}

/-- `MapVirtualAddress` does nothing to the rest of the state but what the allocations within
do. -/
theorem findEntry_rest (hrefl : ∀ r, R r r)
    (hagain : ∀ w t w', again w = .ok (t, w') → R w.rest w'.rest) {page : EntryRef}
    (hfind : findEntry again s virt flags = .ok (page, s')) : R s.rest s'.rest := by
  rw [findEntry] at hfind
  dsimp only at hfind
  split at hfind
  · rw [Except.ok.injEq, Prod.mk.injEq] at hfind
    rw [← hfind.2]
    exact hrefl _
  split at hfind
  · split at hfind
    · simp at hfind
    · rename_i t w hcall
      have hw := hagain _ t w hcall
      split at hfind
      · rw [Except.ok.injEq, Prod.mk.injEq] at hfind
        rw [← hfind.2]
        exact hw
      · simp at hfind
  · split at hfind
    · rw [Except.ok.injEq, Prod.mk.injEq] at hfind
      rw [← hfind.2]
      exact hrefl _
    · simp at hfind

theorem mapVirtualAddress_rest (hrefl : ∀ r, R r r)
    (htrans : ∀ r r' r'', R r r' → R r' r'' → R r r'')
    (hagain : ∀ w t w', again w = .ok (t, w') → R w.rest w'.rest) {n : ℕ}
    (hrun : mapVirtualAddress again n s phys virt flags = .ok s') : R s.rest s'.rest := by
  induction n generalizing s phys virt with
  | zero =>
    rw [mapVirtualAddress, Except.ok.injEq] at hrun
    rw [← hrun]
    exact hrefl _
  | succ n ih =>
    obtain ⟨page, u, hfind, hrest⟩ := mapVirtualAddress_succ hrun
    have hu : R (u.setEntry page (mapEntry phys flags)).rest s'.rest := ih hrest
    exact htrans _ _ _ (findEntry_rest hrefl hagain hfind) hu

end Rest

/-- Whatever `s` has been loaded with, `s'` has been loaded with. -/
def KeepsLoading (r r' : Allocators) : Prop := ∀ B, Loading r.pm B → Loading r'.pm B

theorem mapVirtualAddress_loading {again : Machine → Except Fault (ℕ × Machine)}
    (hagain : ∀ w t w', again w = .ok (t, w') → KeepsLoading w.rest w'.rest) {n : ℕ}
    {s s' : Machine} {phys virt flags : ℕ}
    (hrun : mapVirtualAddress again n s phys virt flags = .ok s') : KeepsLoading s.rest s'.rest :=
  mapVirtualAddress_rest (fun _ _ h ↦ h) (fun _ _ _ h h' B hB ↦ h' B (h B hB)) hagain hrun

/-- `AllocatePages(kernel, 1)` asks for single frames only. -/
theorem allocatePages_loading {depth : ℕ} {s s' : Machine} {virt : ℕ}
    (hrun : allocatePages depth s 1 = .ok (virt, s')) : KeepsLoading s.rest s'.rest := by
  induction depth generalizing s s' virt with
  | zero => simp [allocatePages] at hrun
  | succ depth ih =>
    rw [allocatePages, allocateRounded, show pageSizeOrder (pageSizeAlign 1) = 0 by decide] at hrun
    split at hrun
    · simp at hrun
    · simp at hrun
    · rename_i p pm hcall
      rw [mapFrames] at hrun
      split at hrun
      · simp at hrun
      · rename_i u hmap
        rw [Except.ok.injEq, Prod.mk.injEq] at hrun
        have hu := mapVirtualAddress_loading (fun w t w' h ↦ ih h) hmap
        have hcharge : ∀ n, (u.charge n).rest.pm = u.rest.pm := fun _ ↦ rfl
        rw [← hrun.2]
        intro B hB
        rw [hcharge]
        exact hu B (hB.allocate (Nat.zero_le 7) hcall)

theorem mapDescriptors_loading {depth phys virt flags : ℕ} {z z' : Zones} {B : List ℕ}
    (hrun : mapDescriptors depth z phys virt flags = .ok z') (hz : Loading z.machine.rest.pm B) :
    Loading z'.machine.rest.pm B := by
  rw [mapDescriptors] at hrun
  split at hrun
  · simp at hrun
  · rename_i u hmap
    rw [Except.ok.injEq] at hrun
    rw [← hrun]
    exact mapVirtualAddress_loading (fun w t w' h ↦ allocatePages_loading h) hmap B hz

theorem allocateDescriptors_loading {z z' : Zones} {phys : ℕ} {B : List ℕ}
    (hrun : allocateDescriptors z = .ok (phys, z')) (hz : Loading z.machine.rest.pm B) :
    Loading z'.machine.rest.pm B := by
  rw [allocateDescriptors] at hrun
  split at hrun
  · simp at hrun
  · simp at hrun
  · rename_i p pm hcall
    rw [Except.ok.injEq, Prod.mk.injEq] at hrun
    rw [← hrun.2]
    exact hz.allocate (by omega) hcall

/-! ## Block by block -/

theorem Zones.writePages_pm (z : Zones) (pages address : ℕ) :
    (z.writePages pages address).machine.rest.pm =
      CubikOS.writePages z.machine.rest.pm pages address := rfl

/-- **One more block is loaded**, whatever page tables it takes. -/
theorem loadBlock_loading {depth current : ℕ} {z z' : Zones}
    (hz : Loading z.machine.rest.pm z.written) (hcur : Loadable current)
    (hnew : current ∉ z.written) (hrun : loadBlock depth z current = .ok z') :
    Loading z'.machine.rest.pm z'.written := by
  rw [loadBlock] at hrun
  split at hrun
  · simp at hrun
  · rename_i pm hcall
    have hB := hz.eq_nil_of_none (by omega) hcall
    have hpm := hz.allocate (by omega) hcall
    rw [loadFirstBlock] at hrun
    split at hrun
    · simp at hrun
    · rename_i z₁ hmap
      -- at address 0 nothing can be mapped
      have hvirt : kernelVirtualBase ≤ (vmAllocatePages chunkStart z.machine.rest.marks 16).1 := by
        refine (vmAllocatePages_virt chunkStart z.machine.rest.marks 16).elim (fun h0 ↦ ?_) And.left
        rw [mapDescriptors] at hmap
        dsimp only [Paging.setPm] at hmap
        rw [h0, mapVirtualAddress, if_neg (by decide)] at hmap
        simp at hmap
      have hwritten := mapDescriptors_written hmap
      have h₁ := mapDescriptors_loading hmap hpm
      split at hrun
      · simp at hrun
      · rename_i z₂ halloc
        have h₂ : Loading _ (current :: z.written) := h₁.write (h₁.start hB _) hcur hnew
          fun b hb _ i j hi _ ↦ slots_below hb hvirt hi
        rw [← Zones.writePages_pm] at h₂
        have h₃ := mapDescriptors_loading hrun (allocateDescriptors_loading halloc h₂)
        rwa [mapDescriptors_written hrun, allocateDescriptors_written halloc, Zones.writePages,
          hwritten]
  · rename_i p pm hcall
    have hpm := hz.allocate (by omega) hcall
    rw [loadNextBlock] at hrun
    split at hrun
    · simp at hrun
    · rename_i z₁ halloc
      split at hrun
      · simp at hrun
      · rename_i z₂ hmap
        have h₂ := mapDescriptors_loading hmap (allocateDescriptors_loading halloc hpm)
        have hwritten : z₂.written = z.written := by
          rw [mapDescriptors_written hmap, allocateDescriptors_written halloc]
        rw [Except.ok.injEq] at hrun
        rw [← hrun, Zones.writePages, hwritten]
        exact h₂.write (h₂.untouched _ hcur hnew) hcur hnew
          fun b hb hne i j hi hj ↦ slots_apart hb hcur hne hi hj

/-- The loop loads one block after the other. -/
theorem zoneLoop_loading {depth bound fuel current : ℕ} {z z' : Zones}
    (hz : Loading z.machine.rest.pm z.written) (hal : pageMaxSize ∣ current)
    (hbound : bound + pageMaxSize ≤ descriptorLimit)
    (hnew : ∀ b ∈ z.written, b < current ∨ bound ≤ b)
    (hrun : zoneLoop (loadBlock depth) bound fuel z current = .ok z') :
    Loading z'.machine.rest.pm z'.written := by
  induction fuel generalizing z current with
  | zero => simp [zoneLoop] at hrun
  | succ fuel ih =>
    have hlow := zoneLoop_low hrun
    rw [zoneLoop] at hrun
    split at hrun
    · rename_i hlt
      rw [if_neg (by omega)] at hrun
      split at hrun
      · simp at hrun
      · rename_i z₁ hbody
        have hlimit : descriptorLimit ≤ 2 ^ 64 := by decide
        have hpos : 0 < pageMaxSize := by decide
        have hz₁ := loadBlock_loading hz ⟨hal, by omega⟩
          (fun hmem ↦ (hnew _ hmem).elim (by omega) (by omega)) hbody
        rw [Nat.mod_eq_of_lt (by omega)] at hrun
        refine ih hz₁ (Nat.dvd_add hal (dvd_refl _)) (fun b hb ↦ ?_) hrun
        rw [loadBlock_written hbody, List.mem_cons] at hb
        rcases hb with rfl | hb
        · exact Or.inl (by omega)
        · exact (hnew b hb).imp (by omega) id
    · rw [Except.ok.injEq] at hrun
      rwa [← hrun]

/-- A block lies in a range. -/
def Range.HasBlock (range : Range) (b : ℕ) : Prop :=
  range.start ≤ b ∧ b + pageMaxSize ≤ range.stop

/-- **A range is loaded**, if none of its blocks has been. -/
theorem pmLoadZoneRange_loading {depth fuel : ℕ} {z z' : Zones} {range : Range}
    (hz : Loading z.machine.rest.pm z.written) (hle : range.start ≤ range.stop)
    (hstop : range.stop ≤ descriptorLimit)
    (hnew : ∀ b ∈ z.written, b + pageMaxSize ≤ range.start ∨ range.stop ≤ b)
    (hrun : pmLoadZoneRange depth fuel z range = .ok z') :
    Loading z'.machine.rest.pm z'.written ∧
      ∀ b ∈ z'.written, b ∈ z.written ∨ range.HasBlock b := by
  have hlimit : descriptorLimit + pageMaxSize ≤ 2 ^ 64 := by decide
  have hpos : 0 < pageMaxSize := by decide
  rw [pmLoadZoneRange, loadZoneRange] at hrun
  split at hrun
  · rw [Except.ok.injEq] at hrun
    rw [← hrun]
    exact ⟨hz, fun b ↦ Or.inl⟩
  · rename_i hlt
    obtain ⟨hal, hup, -⟩ := zoneStart (show range.start < 2 ^ 64 by omega)
    obtain ⟨hfrom, -⟩ := hup (by omega)
    obtain ⟨hbound, -, hend, -⟩ :=
      zoneBound (show range.stop < 2 ^ 64 by omega) (Nat.lt_of_not_le hlt)
    refine ⟨zoneLoop_loading hz hal (by omega) (fun b hb ↦ ?_) hrun, fun b hb ↦ ?_⟩
    · exact (hnew b hb).imp (by omega) (by omega)
    · refine ((zoneLoop_written hal (by omega) hrun b).mp hb).imp_right fun h ↦ ?_
      exact ⟨by omega, by omega⟩

/-! ## Range by range -/

/-- The ranges `PM_LoadZoneRange` is called with, in order. -/
def zoneRanges (calls : List MemoryCall) : List Range :=
  calls.filterMap fun
    | .pmLoadZoneRange range => some range
    | _ => none

/-- One range after the other. -/
def loadRanges {σ : Type} (load : σ → Range → Except Fault σ) : List Range → σ → Except Fault σ
  | [], s => .ok s
  | range :: ranges, s =>
    match load s range with
    | .error f => .error f
    | .ok s => loadRanges load ranges s

/-- The calls of `PM_LoadZoneRange`, one after the other. -/
def loadZones (depth fuel : ℕ) (ranges : List Range) (z : Zones) : Except Fault Zones :=
  loadRanges (pmLoadZoneRange depth fuel) ranges z

theorem loadRanges_cons {σ : Type} {load : σ → Range → Except Fault σ} {range : Range}
    {ranges : List Range} {s s' : σ} (hrun : loadRanges load (range :: ranges) s = .ok s') :
    ∃ s₁, load s range = .ok s₁ ∧ loadRanges load ranges s₁ = .ok s' := by
  rw [loadRanges] at hrun
  split at hrun
  · simp at hrun
  · exact ⟨_, ‹_›, hrun⟩

/-- Two ranges have no address in common. -/
def Range.Apart (r r' : Range) : Prop := r.stop ≤ r'.start ∨ r'.stop ≤ r.start

theorem loadZones_loading {depth fuel : ℕ} {ranges : List Range} {z z' : Zones}
    (hz : Loading z.machine.rest.pm z.written)
    (hranges : ∀ r ∈ ranges, r.start ≤ r.stop ∧ r.stop ≤ descriptorLimit)
    (hapart : ranges.Pairwise Range.Apart)
    (hnew : ∀ r ∈ ranges, ∀ b ∈ z.written, b + pageMaxSize ≤ r.start ∨ r.stop ≤ b)
    (hrun : loadZones depth fuel ranges z = .ok z') :
    Loading z'.machine.rest.pm z'.written ∧
      ∀ b ∈ z'.written, b ∈ z.written ∨ ∃ r ∈ ranges, r.HasBlock b := by
  rw [loadZones] at hrun
  induction ranges generalizing z with
  | nil =>
    rw [loadRanges, Except.ok.injEq] at hrun
    rw [← hrun]
    exact ⟨hz, fun b ↦ Or.inl⟩
  | cons range ranges ih =>
    obtain ⟨z₁, hfirst, hrest⟩ := loadRanges_cons hrun
    obtain ⟨hle, hstop⟩ := hranges range List.mem_cons_self
    obtain ⟨hapart₁, hapart₂⟩ := List.pairwise_cons.mp hapart
    obtain ⟨hz₁, hwritten⟩ := pmLoadZoneRange_loading hz hle hstop
      (hnew range List.mem_cons_self) hfirst
    have hnew₁ : ∀ r ∈ ranges, ∀ b ∈ z₁.written, b + pageMaxSize ≤ r.start ∨ r.stop ≤ b := by
      intro r hr b hb
      rcases hwritten b hb with hb | ⟨h1, h2⟩
      · exact hnew r (List.mem_cons_of_mem _ hr) b hb
      · exact (hapart₁ r hr).imp h2.trans h1.trans'
    obtain ⟨hz', hwritten'⟩ := ih hz₁ (fun r hr ↦ hranges r (List.mem_cons_of_mem _ hr)) hapart₂
      hnew₁ hrest
    refine ⟨hz', fun b hb ↦ ?_⟩
    rcases hwritten' b hb with hb | ⟨r, hr, hb⟩
    · exact (hwritten b hb).imp_right fun h ↦ ⟨range, List.mem_cons_self, h⟩
    · exact Or.inr ⟨r, List.mem_cons_of_mem _ hr, hb⟩

/-! ## The entries of the memory map -/

/-- The entries of usable memory that the boot loader has passed. -/
def usableEntries (tags : List Stivale2Tag) : List Stivale2MmapEntry :=
  ofType .available (mmapEntries tags)

theorem zoneRanges_calls (entries : List MemoryMapEntry) :
    zoneRanges (entries.flatMap MemoryMapEntry.calls) =
      (entries.filter fun entry ↦ entry.type = .available).map MemoryMapEntry.range := by
  induction entries with
  | nil => rfl
  | cons entry entries ih =>
    rw [List.flatMap_cons, zoneRanges, List.filterMap_append, ← zoneRanges, ← zoneRanges, ih,
      List.filter_cons, MemoryMapEntry.calls]
    rcases htype : entry.type <;> simp [zoneRanges]

/-- `PM_LoadZoneRange` is called for the usable entries, in some order. -/
theorem zoneRanges_memoryInitialize {tags : List Stivale2Tag} {info : BootInfo} (tAddr : ℕ)
    (hle : (mmapEntries tags).length ≤ memoryMapLimit)
    (hparse : parseStivale2Info .zeroed tags = .ok info) :
    (zoneRanges (memoryInitialize tAddr info.mem).calls).Perm
      ((usableEntries tags).map fun e ↦ e.record.range) := by
  obtain ⟨info', hrun, hmem⟩ := parseStivale2Info_zeroed hle
  rw [hparse, Except.ok.injEq] at hrun
  subst hrun
  have hentries := map_add_zeroed (mmapEntries tags)
  rw [← hmem] at hentries
  -- the calls before and after those of the loop are none of these
  have hcalls : zoneRanges (memoryInitialize tAddr info.mem).calls =
      zoneRanges
        (((handlingOrder info.mem).map info.mem.entries).flatMap MemoryMapEntry.calls) := by
    rw [memoryInitialize, memoryLoop_eq, foldl_visit _ _ _ rfl rfl rfl, List.flatMap_map,
      zoneRanges, List.filterMap_append, List.filterMap_append, zoneRanges]
    simp
  have hperm := (handlingOrder_perm info.mem).map info.mem.entries
  rw [hentries] at hperm
  rw [hcalls, zoneRanges_calls]
  refine ((hperm.filter _).map _).trans (List.Perm.of_eq ?_)
  rw [List.filter_map, List.map_map, usableEntries, ofType]
  rfl

/-! ## What is handed out afterwards -/

/-- The invariant of runs, through a list of requests. -/
theorem RunInv.allocateAll {s s' : PmState} {L : ListIndex → List ℕ} {B : List ℕ}
    {R : List Returned} {orders : List ℕ} {bs : List (Option Block)} (hI : RunInv s L B R)
    (hall : allocateAll orders s = .ok (bs, s')) :
    ∃ L' R', RunInv s' L' B (R' ++ R) ∧ R'.map Returned.block = (returnedBlocks bs).reverse := by
  induction orders generalizing s L R bs with
  | nil =>
    rw [CubikOS.allocateAll, Except.ok.injEq, Prod.mk.injEq] at hall
    obtain ⟨rfl, rfl⟩ := hall
    exact ⟨L, [], hI, rfl⟩
  | cons order orders ih =>
    rw [CubikOS.allocateAll] at hall
    split at hall
    · simp at hall
    · rename_i p s₁ hcall
      split at hall
      · simp at hall
      · rename_i bs₁ s₂ hrest
        rw [Except.ok.injEq, Prod.mk.injEq] at hall
        obtain ⟨rfl, rfl⟩ := hall
        rcases p with _ | p
        · rw [pmAllocatePages_none hcall] at hrest
          obtain ⟨L', R', hI', hR'⟩ := ih hI hrest
          exact ⟨L', R', hI', hR'⟩
        · obtain ⟨L₁, hI₁⟩ := hI.alloc hcall
          obtain ⟨L', R', hI', hR'⟩ := ih hI₁ hrest
          refine ⟨L', R' ++ [⟨order, s₁.block p⟩], ?_, ?_⟩
          · rwa [List.append_assoc]
          · rw [List.map_append, hR', Option.map_some, returnedBlocks_some, List.reverse_cons]
            rfl

/-- **What is handed out is usable memory.**  The boot loader passes up to 64 entries, of which the
usable ones do not overlap and end where their descriptors still have room.  Once they have been
loaded, in the order `MemoryInitialize` takes them in and making page tables on the way, no two
blocks that are handed out overlap, and each lies in one usable entry. -/
theorem boot_hands_out_usable {tags : List Stivale2Tag} {info : BootInfo} {z z' : Zones}
    {tAddr depth fuel : ℕ} {orders : List ℕ} {bs : List (Option Block)} {s' : PmState}
    (hle : (mmapEntries tags).length ≤ memoryMapLimit)
    (hapart : (usableEntries tags).Pairwise fun e e' ↦
      e.base + e.length ≤ e'.base ∨ e'.base + e'.length ≤ e.base)
    (hend : ∀ e ∈ usableEntries tags, e.base + e.length ≤ descriptorLimit)
    (hboot : z.machine.rest.pm.Boot) (hzero : ∀ pages, ZeroFilled z.machine.rest.pm pages)
    (hwritten : z.written = []) (hparse : parseStivale2Info .zeroed tags = .ok info)
    (hload : loadZones depth fuel (zoneRanges (memoryInitialize tAddr info.mem).calls) z = .ok z')
    (hall : allocateAll orders z'.machine.rest.pm = .ok (bs, s')) :
    ((returnedBlocks bs).Pairwise fun b c ↦
      Disjoint (b.span archPageSize) (c.span archPageSize)) ∧
    ∀ b ∈ returnedBlocks bs, ∃ e ∈ usableEntries tags,
      b.span archPageSize ⊆ Set.Ico e.base (e.base + e.length) := by
  have hlimit : descriptorLimit < 2 ^ 64 := by decide
  have hperm := zoneRanges_memoryInitialize tAddr hle hparse
  have hrange : ∀ e ∈ usableEntries tags, e.record.range = ⟨e.base, e.base + e.length⟩ := by
    intro e he
    have := hend e he
    rw [Stivale2MmapEntry.record, Nat.mod_eq_of_lt (by omega)]
  rw [List.map_congr_left hrange] at hperm
  have hfrom : ∀ r ∈ zoneRanges (memoryInitialize tAddr info.mem).calls,
      ∃ e ∈ usableEntries tags, r = ⟨e.base, e.base + e.length⟩ := by
    intro r hr
    obtain ⟨e, he, heq⟩ := List.mem_map.mp (hperm.mem_iff.mp hr)
    exact ⟨e, he, heq.symm⟩
  have hsym : ∀ {r r' : Range}, r.Apart r' → r'.Apart r := Or.symm
  have hz : Loading z.machine.rest.pm z.written := hwritten ▸ Loading.boot hboot hzero
  obtain ⟨hz', hblocks⟩ := loadZones_loading hz
    (fun r hr ↦ by
      obtain ⟨e, he, rfl⟩ := hfrom r hr
      exact ⟨Nat.le_add_right _ _, hend e he⟩)
    ((hperm.pairwise_iff hsym).mpr (List.pairwise_map.mpr hapart))
    (fun r _ b hb ↦ by rw [hwritten] at hb; simp at hb) hload
  obtain ⟨L, R, hI⟩ := hz'.zone
  obtain ⟨L', R', hI', hR'⟩ := hI.inv.allocateAll hall
  constructor
  · have hblock := (List.pairwise_append.mp hI'.apart).1
    rw [← List.reverse_reverse (returnedBlocks bs), ← hR', List.pairwise_reverse,
      List.pairwise_map]
    exact hblock.imp fun h ↦ h.symm
  · intro b hb
    rw [← List.mem_reverse, ← hR'] at hb
    obtain ⟨r, hr, rfl⟩ := List.mem_map.mp hb
    obtain ⟨⟨c, hc, -, hsub⟩, -⟩ := hI'.returned r (List.mem_append_left _ hr)
    obtain ⟨range, hmem, hlow, hhigh⟩ := (hblocks c hc).resolve_left (by rw [hwritten]; simp)
    obtain ⟨e, he, rfl⟩ := hfrom range hmem
    exact ⟨e, he, hsub.trans (Set.Ico_subset_Ico hlow hhigh)⟩

/-! ### Twelve MiB -/

section Fresh

variable {z : Zones} {phys flags : ℕ}

/-- Descriptors on pages of the first chunk: their tables are there. -/
theorem mapDescriptors_chunk {depth v : ℕ}
    (hz : z.machine.pointer = (freshMachine zeroState).pointer) (hv : v + 16 ≤ chunkPages) :
    ∃ z', mapDescriptors depth z phys (kernelVirtualBase + v * archPageSize) flags = .ok z' ∧
      z'.machine.pointer = z.machine.pointer ∧ z'.machine.dir = z.machine.dir ∧
      z'.machine.rest = z.machine.rest := by
  obtain ⟨-, hlow, hhigh, hpages⟩ := chunk_range hv
  have htables : ∀ k, k < 16 → vmGetPage z.machine
      (kernelVirtualBase + v * archPageSize + archPageSize * k) ≠ none := by
    intro k hk
    rw [(hpages k hk).1]
    exact vmGetPage_freshMachine hz (by omega)
  have hmaps : ∃ s, mapVirtualAddress (fun s ↦ allocatePages depth s 1) 16 z.machine phys
      (kernelVirtualBase + v * archPageSize) flags = .ok s ∧ s.pointer = z.machine.pointer ∧
        s.dir = z.machine.dir ∧ s.rest = z.machine.rest :=
    mapVirtualAddress_of_tables (fun _ ↦ hlow) hhigh htables
  obtain ⟨s, hmap, hsame⟩ := hmaps
  exact ⟨{ z with machine := s }, by rw [mapDescriptors, hmap], hsame⟩

/-- A page for a table, in the first chunk: one frame is taken for it. -/
theorem allocatePages_chunk {s : Machine} (hs : s.pointer = (freshMachine zeroState).pointer)
    {p v : ℕ} {pm : PmState} (hpm : pmAllocatePages s.rest.pm 0 = .ok (some p, pm))
    (hvm : (vmAllocatePages chunkStart s.rest.marks 1).1 = kernelVirtualBase + v * archPageSize)
    (hv : v + 1 ≤ chunkPages) :
    ∃ u, allocatePages 1 s 1 = .ok (kernelVirtualBase + v * archPageSize, u) ∧
      u.pointer = s.pointer ∧ u.rest.pm = pm := by
  obtain ⟨-, hlow, hhigh, -⟩ := chunk_range hv
  rcases hcall : vmAllocatePages chunkStart s.rest.marks 1 with ⟨virt, m⟩
  rw [hcall] at hvm
  dsimp only at hvm
  have hvirt : InKernel virt := hvm ▸ ⟨hlow, by dsimp only [archPageSize] at *; omega⟩
  have htable := vmGetPage_freshMachine hs (show v < chunkPages by omega)
  rw [Nat.mul_comm, ← hvm] at htable
  obtain ⟨page, hpage⟩ := Option.ne_none_iff_exists'.mp htable
  have hframe : kernelSource.pm s.rest 0 =
      .ok (some (pm.page p).addr, { s.rest with pm := pm }) := by
    rw [show kernelSource.pm = kernelPm from rfl, kernelPm, hpm]
  have hpageOf : kernelSource.vm { s.rest with pm := pm } 1 =
      .ok (virt, { s.rest with pm := pm, marks := m }) := by
    rw [show kernelSource.vm = kernelVm from rfl, kernelVm]
    simp only [hcall]
  have halloc := allocatePagesWith_page (A := kernelSource) 0 hframe hpageOf hvirt hpage
  rw [allocatePagesWith_kernelSource, hvm] at halloc
  exact ⟨_, halloc, rfl, rfl⟩

/-- The descriptors of the block at 4 MiB lie on pages that have the first directory entry. -/
theorem descriptors_pages {k : ℕ} (hk : k < 16) :
    InKernel (descriptorsAddr pageMaxSize + archPageSize * k) ∧
      pdptGetIndex (descriptorsAddr pageMaxSize + archPageSize * k) = 0 ∧
      pdirGetIndex (descriptorsAddr pageMaxSize + archPageSize * k) = 0 := by
  have hvalue : descriptorsAddr pageMaxSize = 0xFFFFFF8000010000 := by decide
  rw [hvalue, InKernel, pdptGetIndex, pdirGetIndex, ← Fin.val_inj, ← Fin.val_inj, tableIndex_val,
    tableIndex_val]
  dsimp only [kernelAddrSpace, archPageSize]
  exact ⟨⟨by omega, by omega⟩, by omega, by omega⟩

/-- Descriptors of the block at 4 MiB, in their own place: a table is made for them, and one frame
is taken for it. -/
theorem mapDescriptors_table (hz : z.machine.pointer = (freshMachine zeroState).pointer)
    (hdir : z.machine.dir = (freshMachine zeroState).dir) {p v : ℕ} {pm : PmState}
    (hpm : pmAllocatePages z.machine.rest.pm 0 = .ok (some p, pm))
    (hvm : (vmAllocatePages chunkStart z.machine.rest.marks 1).1 =
      kernelVirtualBase + v * archPageSize) (hv : v + 1 ≤ chunkPages) :
    ∃ z', mapDescriptors 1 z phys (descriptorsAddr pageMaxSize) flags = .ok z' ∧
      z'.machine.pointer 0 0 = some (kernelVirtualBase + v * archPageSize) ∧
      z'.machine.rest.pm = pm := by
  have hpages := @descriptors_pages
  have hend : descriptorsAddr pageMaxSize + archPageSize + archPageSize * 15 ≤ 2 ^ 64 := by decide
  generalize descriptorsAddr pageMaxSize = addr at hpages hend ⊢
  obtain ⟨hin, hpdpt, hpdir⟩ := hpages (show 0 < 16 by decide)
  rw [Nat.mul_zero, Nat.add_zero] at hin hpdpt hpdir
  obtain ⟨u, halloc, hpointer, hrest⟩ : ∃ u, allocatePages 1 (z.machine.openDir addr flags) 1 =
      .ok (kernelVirtualBase + v * archPageSize, u) ∧ u.pointer = z.machine.pointer ∧
        u.rest.pm = pm :=
    allocatePages_chunk (s := z.machine.openDir addr flags) hz hpm hvm hv
  have hzero : kernelVirtualBase + v * archPageSize ≠ 0 := by
    dsimp only [kernelVirtualBase]
    omega
  generalize kernelVirtualBase + v * archPageSize = virt at halloc hzero ⊢
  have hnone : z.machine.pointer (pdptGetIndex addr) (pdirGetIndex addr) = none := by
    rw [hz, hpdpt]
    rfl
  have habsent : (z.machine.dir (pdptGetIndex addr) (pdirGetIndex addr)).present = false := by
    rw [hdir, hpdpt]
    rfl
  have hfind : findEntry (fun s ↦ allocatePages 1 s 1) z.machine addr flags =
      .ok ((virt, pageGetIndex addr), u.installTable addr virt) :=
    findEntry_of_absent ((vmGetPage_eq_none hin).mpr hnone) habsent halloc hzero
  -- the other pages have the same table
  have hself := installTable_self (s := u) addr virt
  rw [hpdpt, hpdir] at hself
  obtain ⟨s, hmap, hsame, -, hrest'⟩ : ∃ s, mapVirtualAddress (fun s ↦ allocatePages 1 s 1) 15
      ((u.installTable addr virt).setEntry (virt, pageGetIndex addr) (mapEntry phys flags))
      ((phys + archPageSize) % 2 ^ 64) (addr + archPageSize) flags = .ok s ∧
      s.pointer = (u.installTable addr virt).pointer ∧
      s.dir = (u.installTable addr virt).dir ∧ s.rest = u.rest := by
    refine mapVirtualAddress_of_tables (fun _ ↦ hin.1.trans (Nat.le_add_right _ _)) hend
      fun k hk ↦ ?_
    obtain ⟨hin', h1, h2⟩ := hpages (show k + 1 < 16 by omega)
    rw [Nat.add_assoc, Nat.add_comm archPageSize, ← Nat.mul_succ, ne_eq, vmGetPage_eq_none hin', h1,
      h2]
    exact fun h ↦ absurd (hself.symm.trans h) (by simp)
  have hnext : (addr + archPageSize) % 2 ^ 64 = addr + archPageSize := by
    refine Nat.mod_eq_of_lt (Nat.lt_of_lt_of_le ?_ hend)
    exact Nat.lt_add_of_pos_right (by decide)
  refine ⟨{ z with machine := s }, ?_, ?_, ?_⟩
  · rw [mapDescriptors, mapVirtualAddress, if_pos hin.pml4GetIndex, hfind]
    simp only [hnext, hmap]
  · rw [hsame, hself]
  · rw [hrest', hrest]

end Fresh

/-- The first block is good for 16 frames, for one more, and for 16 again. -/
theorem firstBlock_serves (pages : ℕ) : ∃ p s q s' r s'',
    pmAllocatePages (writePages zeroState pages pageMaxSize) 4 = .ok (some p, s) ∧
      pmAllocatePages s 0 = .ok (some q, s') ∧ pmAllocatePages s' 4 = .ok (some r, s'') := by
  obtain ⟨s, L, T, hrun, hS, hleft⟩ := alloc_after_insert pages (show (4 : ℕ) ≤ zoneList by decide)
  -- the one frame is cut from the upper half of order 5
  obtain ⟨hcount, hlist, horder⟩ := hleft 5 (by decide)
  have hsel : selectList s (pageMaxOrder + 1) 0 = some 5 := by
    refine selectList_of_first (by decide) (by decide) ?_ fun j _ hj ↦ ?_
    · rw [hcount]; decide
    · have hlow : ¬ 4 < (j : ℕ) := Nat.not_lt.mpr (Nat.le_of_lt_succ (Fin.lt_def.mp hj))
      rw [(hleft j (hj.trans (by decide))).1, if_neg hlow]
  obtain ⟨s', L', hrun', hT', hS'⟩ := pmAllocatePages_eq hS (Nat.zero_le _) hsel hlist
  -- which leaves one of order 4
  have hlist' := hT'.list_of_ne 4 (by decide)
  have hcount' := hT'.count_of_ne 4 (by decide)
  rw [horder (by decide), if_pos (by decide)] at hlist' hcount'
  have hsel' : selectList s' (pageMaxOrder + 1) 4 = some 4 := by
    refine selectList_of_first (by decide) (by decide) ?_ fun j h1 h2 ↦
      absurd (Fin.lt_def.mp h2) (Nat.not_lt.mpr h1)
    rw [hcount', (hleft 4 (by decide)).1]
    decide
  obtain ⟨s'', -, hrun'', -, -⟩ := pmAllocatePages_eq hS' (by decide) hsel' hlist'
  exact ⟨_, s, _, s', _, s'', hrun, hrun', hrun''⟩

theorem fourMiB_lt : 0x400000 < 2 ^ 64 := by decide

theorem eightMiB_lt : 0x800000 < 2 ^ 64 := by decide

/-- Usable memory from 4 MiB up to 12 MiB. -/
def twelveMiB : Stivale2Tag where
  identifier := stivale2StructTagMemmapId
  memmap := [⟨0x400000, 0x800000, 1, fourMiB_lt, eightMiB_lt⟩]
  framebuffer := ⟨0, 0, 0, 0, 0⟩

/-- From an empty bitmap, 16 pages are to be had and then one more. -/
theorem vmAllocatePages_sixteen : ∃ v m w,
    vmAllocatePages chunkStart (fun _ ↦ 0#64) 16 = (kernelVirtualBase + v * archPageSize, m) ∧
      v + 16 ≤ chunkPages ∧
      (vmAllocatePages chunkStart m 1).1 = kernelVirtualBase + w * archPageSize ∧
      w + 1 ≤ chunkPages := by
  have hgap : ∀ w, 64 * w < 1 + 16 → NoGap (fun _ ↦ 0#64) 16 w :=
    fun w _ h ↦ absurd (show 0#64 = BitVec.allOnes 64 from h) (by decide)
  obtain ⟨e, he, v, rfl, hvend, -⟩ := scanMarks_finds (m := fun _ ↦ 0#64) (p := 1)
    (show 1 ≤ 16 by omega) (by omega) (Or.inl (by decide)) (by dsimp only [chunkPages]; omega)
    (fun x _ _ ↦ BitVec.zero_and) hgap
  have hcall : vmAllocatePages chunkStart (fun _ ↦ 0#64) 16 =
      (kernelVirtualBase + v * archPageSize, markPages chunkStart 16 (fun _ ↦ 0#64) v) := by
    have hvirt : (v * archPageSize + kernelVirtualBase) % 2 ^ 64 =
        kernelVirtualBase + v * archPageSize := by
      dsimp only [archPageSize, kernelVirtualBase]
      omega
    have hpage : (kernelVirtualBase + v * archPageSize + 2 ^ 64 - kernelVirtualBase) % 2 ^ 64 /
        archPageSize = v := by
      dsimp only [archPageSize, kernelVirtualBase]
      omega
    unfold vmAllocatePages vmMarkPagesUsed
    rw [he]
    simp only [hvirt, hpage]
  -- page 20 is behind the 16 pages
  have hclear : ∀ v, v ≤ 1 → Clear (markPages chunkStart 16 (fun _ ↦ 0#64) v) 20 := by
    intro v hv
    interval_cases v <;> decide +kernel
  have htwenty : ∀ x, 20 ≤ x → x < 20 + 1 →
      Clear (markPages chunkStart 16 (fun _ ↦ 0#64) v) x := by
    intro x h1 h2
    obtain rfl : x = 20 := by omega
    exact hclear v (by omega)
  obtain ⟨w, hw, hwend⟩ := vmAllocatePages_finds (le_refl 1) (by decide) (Or.inr rfl) (by decide)
    htwenty fun _ _ _ ↦ Or.inl rfl
  exact ⟨v, _, w, hcall, by dsimp only [chunkPages]; omega, hw, hwend⟩

/-- Its first block is loaded, with a table for its descriptors, and has 16 frames left. -/
theorem loadFirstBlock_fresh : ∃ z' q s',
    loadFirstBlock 1 ⟨freshMachine zeroState, []⟩ pageMaxSize = .ok z' ∧
      z'.machine.pointer 0 0 ≠ none ∧
      pmAllocatePages z'.machine.rest.pm 4 = .ok (some q, s') := by
  obtain ⟨v, m, w, hvm, hv, hvm', hw⟩ := vmAllocatePages_sixteen
  generalize hvirt : kernelVirtualBase + v * archPageSize = virt at hvm
  obtain ⟨p, s, q, s', r, s'', hp, hq, hr⟩ := firstBlock_serves (castPage virt)
  obtain ⟨z₁, hmap, hptr, hdir, hrest⟩ : ∃ z₁, mapDescriptors 1
      ⟨(freshMachine zeroState).setMarks m, []⟩ pageMaxSize
        (kernelVirtualBase + v * archPageSize) pageFlagWritable = .ok z₁ ∧
      z₁.machine.pointer = (freshMachine zeroState).pointer ∧
      z₁.machine.dir = (freshMachine zeroState).dir ∧
      z₁.machine.rest = ((freshMachine zeroState).setMarks m).rest :=
    mapDescriptors_chunk rfl hv
  rw [hvirt] at hmap
  have hpm₁ : z₁.machine.rest.pm = zeroState := by rw [hrest]; rfl
  have hmarks₁ : z₁.machine.rest.marks = m := by rw [hrest]; rfl
  rw [← hmarks₁] at hvm'
  -- the block is there when its own pages are asked for
  have halloc : allocateDescriptors (z₁.writePages (castPage virt) pageMaxSize) =
      .ok ((s.page p).addr, ⟨(z₁.writePages (castPage virt) pageMaxSize).machine.setPm s,
        pageMaxSize :: z₁.written⟩) := by
    rw [allocateDescriptors, Zones.writePages_pm, hpm₁, hp]
    rfl
  obtain ⟨z₂, hmap₂, htable, hrest₂⟩ : ∃ z₂, mapDescriptors 1
      ⟨(z₁.writePages (castPage virt) pageMaxSize).machine.setPm s, pageMaxSize :: z₁.written⟩
        pageMaxSize (descriptorsAddr pageMaxSize) pageFlagWritable = .ok z₂ ∧
      z₂.machine.pointer 0 0 = some (kernelVirtualBase + w * archPageSize) ∧
      z₂.machine.rest.pm = s' :=
    mapDescriptors_table (z := ⟨(z₁.writePages (castPage virt) pageMaxSize).machine.setPm s, _⟩)
      hptr hdir hq hvm' hw
  refine ⟨z₂, r, s'', ?_, by rw [htable]; simp, ?_⟩
  · rw [loadFirstBlock, show (freshMachine zeroState).rest.marks = fun _ ↦ 0#64 from rfl, hvm]
    simp only [hmap, halloc]
    exact hmap₂
  · rw [hrest₂]
    exact hr

/-- The entry is loaded, as far as it ever is: its first block, for whose descriptors a page table
is made.  The frames that are handed out afterwards are some of its. -/
theorem boot_hands_out_usable_twelveMiB : ∃ info z' b s',
    parseStivale2Info .zeroed [twelveMiB] = .ok info ∧
    loadZones 1 2 (zoneRanges (memoryInitialize 0 info.mem).calls) ⟨freshMachine zeroState, []⟩ =
      .ok z' ∧
    (freshMachine zeroState).pointer 0 0 = none ∧ z'.machine.pointer 0 0 ≠ none ∧
    allocateAll [4] z'.machine.rest.pm = .ok ([some b], s') ∧
    b.span archPageSize ⊆ Set.Ico 0x400000 0xC00000 := by
  obtain ⟨info, hparse, -⟩ := parseStivale2Info_zeroed
    (show (mmapEntries [twelveMiB]).length ≤ memoryMapLimit by decide)
  have husable : usableEntries [twelveMiB] = twelveMiB.memmap := rfl
  have hranges : zoneRanges (memoryInitialize 0 info.mem).calls = [⟨0x400000, 0xC00000⟩] := by
    have hperm := zoneRanges_memoryInitialize 0 (by decide) hparse
    rw [husable] at hperm
    exact List.perm_singleton.mp hperm
  have hnone : pmAllocatePages zeroState 4 = .ok (none, zeroState) := rfl
  obtain ⟨z', q, s', hfirst, htable, hq⟩ := loadFirstBlock_fresh
  have hblock : loadBlock 1 ⟨freshMachine zeroState, []⟩ pageMaxSize = .ok z' := by
    rw [loadBlock, show (freshMachine zeroState).rest.pm = zeroState from rfl, hnone]
    exact hfirst
  have hload : loadZones 1 2 (zoneRanges (memoryInitialize 0 info.mem).calls)
      ⟨freshMachine zeroState, []⟩ = .ok z' := by
    rw [hranges, loadZones, loadRanges, pmLoadZoneRange, loadZoneRange, if_neg (by decide),
      show alignUp 0x400000 pageMaxSize = pageMaxSize by decide, zoneLoop, if_pos (by decide),
      if_neg (by decide), hblock]
    simp only
    rw [zoneLoop, if_neg (by decide)]
    rfl
  have hall : allocateAll [4] z'.machine.rest.pm = .ok ([some (s'.block q)], s') := by
    rw [allocateAll, hq]
    rfl
  refine ⟨info, z', s'.block q, s', hparse, hload, rfl, htable, hall, ?_⟩
  have hlimit : descriptorLimit = 0x1FE000000000 := by decide
  obtain ⟨-, hinside⟩ := boot_hands_out_usable (by decide)
    (by rw [husable]; exact List.pairwise_singleton _ _)
    (by rw [husable, hlimit]; simp [twelveMiB]) zeroState_boot zeroState_zeroFilled rfl hparse
    hload hall
  obtain ⟨e, he, hsub⟩ := hinside (s'.block q) (by simp [returnedBlocks])
  rw [husable] at he
  obtain rfl : e = ⟨0x400000, 0x800000, 1, fourMiB_lt, eightMiB_lt⟩ := List.mem_singleton.mp he
  exact hsub

end CubikOS

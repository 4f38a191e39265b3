import CubikOS.Mm.Malloc

/-!
# Loading a zone

`PM_LoadZoneRange` of `Kernel/src/mm/page.c`: cut a range of physical memory into blocks of 4 MiB
and hand each of them to `write_pages`.

The loop is kept apart from what it does with a block.  It is left one block early, so the last
block of a range is never loaded, and it makes no headway at all from a block below 1 MiB.

The descriptors of the first block ever loaded are written where `VM_AllocatePages` puts them, and
the memory they are in is then mapped at `KERNEL_PHYSICAL_PAGES` too.  The model follows the
mapping, but not that the descriptors can be seen in both places.
-/

set_option autoImplicit false

namespace CubikOS

/-! ## The function -/

/-- The machine, and the blocks `write_pages` has been called for, the latest first. -/
structure Zones where
  /-- The memory management of the kernel. -/
  machine : Machine
  /-- The second arguments of the calls. -/
  written : List ℕ

/-- `write_pages(pages, address)`. -/
def Zones.writePages (z : Zones) (pages address : ℕ) : Zones :=
  ⟨z.machine.setPm (CubikOS.writePages z.machine.rest.pm pages address), address :: z.written⟩

/-- Where the descriptors of the block at `current` belong. -/
def descriptorsAddr (current : ℕ) : ℕ :=
  (kernelPhysicalPages + current / archPageSize * pageframeSize) % 2 ^ 64

/-- `MapVirtualAddress(kernel, phys, virt, 16, flags)`. -/
def mapDescriptors (depth : ℕ) (z : Zones) (phys virt flags : ℕ) : Except Fault Zones :=
  match mapVirtualAddress (fun s ↦ allocatePages depth s 1) 16 z.machine phys virt flags with
  | .error f => .error f
  | .ok s => .ok { z with machine := s }

/-- `PM_AllocatePages(4)->addr`, and the state after the call. -/
def allocateDescriptors (z : Zones) : Except Fault (ℕ × Zones) :=
  match pmAllocatePages z.machine.rest.pm 4 with
  | .error f => .error f
  | .ok (none, _) => .error .nullDereference
  | .ok (some page, pm) => .ok ((pm.page page).addr, { z with machine := z.machine.setPm pm })

/-- What is done with a block when there is no memory yet: its own first 64 KiB are to hold its
descriptors. -/
def loadFirstBlock (depth : ℕ) (z : Zones) (current : ℕ) : Except Fault Zones :=
  let vm := vmAllocatePages chunkStart z.machine.rest.marks 16
  match mapDescriptors depth { z with machine := z.machine.setMarks vm.2 } current vm.1
      pageFlagWritable with
  | .error f => .error f
  | .ok z => match allocateDescriptors (z.writePages (castPage vm.1) current) with
    | .error f => .error f
    | .ok (_, z) => mapDescriptors depth z current (descriptorsAddr current) pageFlagWritable

/-- What is done with a block when there is: its descriptors go to new pages. -/
def loadNextBlock (depth : ℕ) (z : Zones) (current : ℕ) : Except Fault Zones :=
  match allocateDescriptors z with
  | .error f => .error f
  | .ok (phys, z) => match mapDescriptors depth z phys (descriptorsAddr current)
      (pageFlagPresent ||| pageFlagWritable) with
    | .error f => .error f
    | .ok z => .ok (z.writePages (castPage (descriptorsAddr current)) current)

/-- The body of the loop.  The pages of the first call of `PM_AllocatePages(4)` are only used to
see that there are any. -/
def loadBlock (depth : ℕ) (z : Zones) (current : ℕ) : Except Fault Zones :=
  match pmAllocatePages z.machine.rest.pm 4 with
  | .error f => .error f
  | .ok (none, pm) => loadFirstBlock depth { z with machine := z.machine.setPm pm } current
  | .ok (some _, pm) => loadNextBlock depth { z with machine := z.machine.setPm pm } current

section Loop

variable {σ : Type} (body : σ → ℕ → Except Fault σ)

/-- The loop of `PM_LoadZoneRange`. -/
def zoneLoop (bound : ℕ) : ℕ → σ → ℕ → Except Fault σ
  | 0, _, _ => .error .outOfFuel
  | fuel + 1, s, current =>
    if current < bound then
      -- `continue`, with `current` where it was
      if current < 0x100000 then zoneLoop bound fuel s current
      else match body s current with
        | .error f => .error f
        | .ok s => zoneLoop bound fuel s ((current + pageMaxSize) % 2 ^ 64)
    else .ok s

/-- `PM_LoadZoneRange(range)` with the given body. -/
def loadZoneRange (fuel : ℕ) (s : σ) (range : Range) : Except Fault σ :=
  if alignUp range.start pageMaxSize ≥ alignDown range.stop pageMaxSize then .ok s
  else zoneLoop body ((alignDown range.stop pageMaxSize + 2 ^ 64 - pageMaxSize) % 2 ^ 64) fuel s
    (alignUp range.start pageMaxSize)

end Loop

/-- `PM_LoadZoneRange(range)`. -/
def pmLoadZoneRange (depth fuel : ℕ) (z : Zones) (range : Range) : Except Fault Zones :=
  loadZoneRange (loadBlock depth) fuel z range

/-! ## One block -/

theorem mapDescriptors_written {depth phys virt flags : ℕ} {z z' : Zones}
    (hrun : mapDescriptors depth z phys virt flags = .ok z') : z'.written = z.written := by
  rw [mapDescriptors] at hrun
  split at hrun
  · simp at hrun
  · rw [Except.ok.injEq] at hrun
    rw [← hrun]

theorem allocateDescriptors_written {z z' : Zones} {phys : ℕ}
    (hrun : allocateDescriptors z = .ok (phys, z')) : z'.written = z.written := by
  rw [allocateDescriptors] at hrun
  split at hrun
  · simp at hrun
  · simp at hrun
  · rw [Except.ok.injEq, Prod.mk.injEq] at hrun
    rw [← hrun.2]

/-- **A block is written once.** -/
theorem loadBlock_written {depth current : ℕ} {z z' : Zones}
    (hrun : loadBlock depth z current = .ok z') : z'.written = current :: z.written := by
  rw [loadBlock] at hrun
  split at hrun
  · simp at hrun
  · rw [loadFirstBlock] at hrun
    split at hrun
    · simp at hrun
    · rename_i z₁ hfirst
      split at hrun
      · simp at hrun
      · rename_i z₂ halloc
        rw [mapDescriptors_written hrun, allocateDescriptors_written halloc, Zones.writePages,
          mapDescriptors_written hfirst]
  · rw [loadNextBlock] at hrun
    split at hrun
    · simp at hrun
    · rename_i z₁ halloc
      split at hrun
      · simp at hrun
      · rename_i z₂ hmap
        rw [Except.ok.injEq] at hrun
        rw [← hrun, Zones.writePages, mapDescriptors_written hmap,
          allocateDescriptors_written halloc]

/-! ## The loop -/

section Loop

variable {σ : Type} {body : σ → ℕ → Except Fault σ} {bound fuel current : ℕ} {s s' : σ}

/-- **Below 1 MiB there is no headway.** -/
theorem zoneLoop_stuck (hlow : current < 0x100000) (hlt : current < bound) (fuel : ℕ) (s : σ) :
    zoneLoop body bound fuel s current = .error .outOfFuel := by
  induction fuel with
  | zero => rfl
  | succ fuel ih => rw [zoneLoop, if_pos hlt, if_pos hlow, ih]

/-- One round of the loop: a `continue`, or a block that is loaded. -/
inductive ZoneRound (body : σ → ℕ → Except Fault σ) (bound : ℕ) : σ × ℕ → σ × ℕ → Prop
  | skip {s : σ} {current : ℕ} (hlt : current < bound) (hlow : current < 0x100000) :
      ZoneRound body bound (s, current) (s, current)
  | block {s s' : σ} {current : ℕ} (hlt : current < bound) (hlow : 0x100000 ≤ current)
      (hbody : body s current = .ok s') :
      ZoneRound body bound (s, current) (s', (current + pageMaxSize) % 2 ^ 64)

/-- After some rounds the body does not return: the machine has panicked or has taken a fault, and
there are no more rounds. -/
def BodyFails (body : σ → ℕ → Except Fault σ) (bound : ℕ) (s : σ) (current : ℕ) : Prop :=
  ∃ s' c f, Relation.ReflTransGen (ZoneRound body bound) (s, current) (s', c) ∧ c < bound ∧
    0x100000 ≤ c ∧ body s' c = .error f

/-- Below 1 MiB the rounds stay where they are. -/
theorem eq_of_rounds {x : σ × ℕ} (hlow : current < 0x100000)
    (hrounds : Relation.ReflTransGen (ZoneRound body bound) (s, current) x) : x = (s, current) := by
  induction hrounds with
  | refl => rfl
  | tail _ hround ih =>
    subst ih
    cases hround with
    | skip => rfl
    | block _ hhigh => omega

/-- From 1 MiB on the loop ends, unless one of its blocks ends it. -/
theorem zoneLoop_ends (hlow : 0x100000 ≤ current) (hbound : bound + pageMaxSize < 2 ^ 64)
    (hfuel : bound ≤ current + pageMaxSize * fuel) :
    (∃ s', zoneLoop body bound (fuel + 1) s current = .ok s') ∨ BodyFails body bound s current := by
  induction fuel generalizing s current with
  | zero => exact Or.inl ⟨s, by rw [zoneLoop, if_neg (by omega)]⟩
  | succ fuel ih =>
    rw [zoneLoop]
    split
    · rename_i hlt
      rw [if_neg (by omega)]
      cases hbody : body s current with
      | error f => exact Or.inr ⟨s, current, f, .refl, hlt, hlow, hbody⟩
      | ok s₁ =>
        have hround := ZoneRound.block hlt hlow hbody
        rw [Nat.mod_eq_of_lt (by omega)] at hround
        rw [Nat.mod_eq_of_lt (by omega)]
        refine (ih (by omega) (by rw [Nat.mul_succ] at hfuel; omega)).imp id ?_
        rintro ⟨s', c, f, hrounds, hrest⟩
        exact ⟨s', c, f, .head hround hrounds, hrest⟩
    · exact Or.inl ⟨s, rfl⟩

/-- A loop that has ended was not stuck. -/
theorem zoneLoop_low (hrun : zoneLoop body bound fuel s current = .ok s') :
    bound ≤ current ∨ 0x100000 ≤ current := by
  by_contra hcon
  rw [not_or, not_le, not_le] at hcon
  rw [zoneLoop_stuck hcon.2 hcon.1] at hrun
  simp at hrun

end Loop

/-- **The blocks a loop has written**: those from where it started up to its bound. -/
theorem zoneLoop_written {depth bound fuel current : ℕ} {z z' : Zones}
    (hal : pageMaxSize ∣ current) (hbound : bound + pageMaxSize < 2 ^ 64)
    (hrun : zoneLoop (loadBlock depth) bound fuel z current = .ok z') (b : ℕ) :
    b ∈ z'.written ↔ b ∈ z.written ∨ pageMaxSize ∣ b ∧ current ≤ b ∧ b < bound := by
  induction fuel generalizing z current with
  | zero => simp [zoneLoop] at hrun
  | succ fuel ih =>
    have hlow := zoneLoop_low hrun
    rw [zoneLoop] at hrun
    split at hrun
    · rename_i hlt
      rw [if_neg (by omega)] at hrun
      split at hrun
      · simp at hrun
      · rename_i z₁ hbody
        rw [Nat.mod_eq_of_lt (by omega)] at hrun
        rw [ih (Nat.dvd_add hal (dvd_refl _)) hrun, loadBlock_written hbody, List.mem_cons,
          or_assoc, or_left_comm]
        refine or_congr_right ?_
        -- the next multiple of 4 MiB after `current` is `current + 4 MiB`
        constructor
        · rintro (rfl | ⟨hdvd, hle, hb⟩)
          · exact ⟨hal, le_refl _, hlt⟩
          · exact ⟨hdvd, by omega, hb⟩
        · rintro ⟨hdvd, hle, hb⟩
          rcases Nat.eq_or_lt_of_le hle with rfl | hlt'
          · exact Or.inl rfl
          · obtain ⟨x, rfl⟩ := hal
            obtain ⟨y, rfl⟩ := hdvd
            refine Or.inr ⟨Nat.dvd_mul_right _ _, ?_, hb⟩
            dsimp only [pageMaxSize] at *
            omega
    · rename_i hge
      rw [Except.ok.injEq] at hrun
      subst hrun
      exact ⟨Or.inl, fun h ↦ h.elim id fun ⟨_, h1, h2⟩ ↦ absurd h2 (by omega)⟩

/-! ## Which blocks are loaded -/

/-- The blocks of a range that should be loaded: those that lie in it and not below 1 MiB. -/
def Wanted (range : Range) (b : ℕ) : Prop :=
  pageMaxSize ∣ b ∧ range.start ≤ b ∧ b + pageMaxSize ≤ range.stop ∧ 0x100000 ≤ b

section Range

variable {range : Range}

/-- The end of the range, rounded down, and the bound of the loop. -/
theorem zoneBound (hstop : range.stop < 2 ^ 64)
    (hlt : alignUp range.start pageMaxSize < alignDown range.stop pageMaxSize) :
    (alignDown range.stop pageMaxSize + 2 ^ 64 - pageMaxSize) % 2 ^ 64 + pageMaxSize =
      alignDown range.stop pageMaxSize ∧ pageMaxSize ∣ alignDown range.stop pageMaxSize ∧
      alignDown range.stop pageMaxSize ≤ range.stop ∧
      range.stop < alignDown range.stop pageMaxSize + pageMaxSize := by
  rw [alignDown] at *
  dsimp only [pageMaxSize] at *
  omega

/-- The start of the range, rounded up, unless that overflows. -/
theorem zoneStart (hstart : range.start < 2 ^ 64) :
    pageMaxSize ∣ alignUp range.start pageMaxSize ∧
      (range.start + pageMaxSize ≤ 2 ^ 64 → range.start ≤ alignUp range.start pageMaxSize ∧
        alignUp range.start pageMaxSize < range.start + pageMaxSize) ∧
      (2 ^ 64 < range.start + pageMaxSize → alignUp range.start pageMaxSize = 0) := by
  rw [alignUp, alignDown]
  dsimp only [pageMaxSize]
  omega

/-- The last block of a range that should be loaded, if there is one. -/
theorem Wanted.last {b : ℕ} (hb : Wanted range b) (hstop : range.stop < 2 ^ 64) :
    alignUp range.start pageMaxSize < alignDown range.stop pageMaxSize ∧
      Wanted range ((alignDown range.stop pageMaxSize + 2 ^ 64 - pageMaxSize) % 2 ^ 64) := by
  obtain ⟨⟨c, rfl⟩, h1, h2, h3⟩ := hb
  have hlt : alignUp range.start pageMaxSize < alignDown range.stop pageMaxSize := by
    rw [alignUp, alignDown, alignDown]
    dsimp only [pageMaxSize] at *
    omega
  refine ⟨hlt, ?_⟩
  rw [Wanted, alignDown]
  dsimp only [pageMaxSize] at *
  omega

/-- **Every block of the range is loaded exactly if there is none**: the last one never is. -/
theorem pmLoadZoneRange_covers_iff {depth fuel : ℕ} {z z' : Zones} (hstart : range.start < 2 ^ 64)
    (hstop : range.stop < 2 ^ 64) (hz : z.written = [])
    (hrun : pmLoadZoneRange depth fuel z range = .ok z') :
    (z'.written.Nodup ∧ ∀ b, b ∈ z'.written ↔ Wanted range b) ↔ ∀ b, ¬ Wanted range b := by
  rw [pmLoadZoneRange, loadZoneRange] at hrun
  obtain ⟨hdvd, hup, hwrap⟩ := zoneStart hstart
  constructor
  · rintro ⟨-, hall⟩ b hb
    obtain ⟨hlt, hlast⟩ := hb.last hstop
    obtain ⟨hbound, -, hle, -⟩ := zoneBound hstop hlt
    rw [if_neg (by omega)] at hrun
    have hmem := (zoneLoop_written hdvd (by omega) hrun _).mp ((hall _).mpr hlast)
    rw [hz] at hmem
    simp at hmem
  · intro hnone
    have hempty : z'.written = [] := by
      split at hrun
      · rw [Except.ok.injEq] at hrun
        rw [← hrun, hz]
      · rename_i hlt
        obtain ⟨hbound, -, hle, -⟩ := zoneBound hstop (by omega)
        refine List.eq_nil_iff_forall_not_mem.mpr fun b hb ↦ ?_
        have hmem := (zoneLoop_written hdvd (by omega) hrun b).mp hb
        rw [hz] at hmem
        obtain ⟨hb1, hb2, hb3⟩ := hmem.resolve_left (by simp)
        -- a loop that has gone round has started at 1 MiB or above
        have hlow := (zoneLoop_low hrun).resolve_left (by omega)
        refine hnone b ⟨hb1, ?_, by omega, by omega⟩
        have := (hup (by by_contra hover; have := hwrap (by omega); omega)).1
        omega
    rw [hempty]
    exact ⟨List.nodup_nil, fun b ↦ ⟨fun h ↦ absurd h List.not_mem_nil, fun h ↦ absurd h (hnone b)⟩⟩

end Range

/-! ## Whether the loop ends -/

/-- The bound of the loop, `end_address - PAGE_MAX_SIZE`. -/
def lastBlock (range : Range) : ℕ :=
  (alignDown range.stop pageMaxSize + 2 ^ 64 - pageMaxSize) % 2 ^ 64

/-- The addresses the loop is set up with neither wrap around nor underflow.  `ALIGN_UP` adds the
whole 4 MiB before it takes the 1 off again. -/
def NoWrap (range : Range) : Prop :=
  range.start + pageMaxSize < 2 ^ 64 ∧
    (alignUp range.start pageMaxSize < alignDown range.stop pageMaxSize →
      pageMaxSize ≤ alignDown range.stop pageMaxSize)

/-- `PM_LoadZoneRange(range)` does not return because one of its blocks does not. -/
def BlockFails (depth : ℕ) (z : Zones) (range : Range) : Prop :=
  alignUp range.start pageMaxSize < alignDown range.stop pageMaxSize ∧
    BodyFails (loadBlock depth) (lastBlock range) z (alignUp range.start pageMaxSize)

section Ends

variable {depth : ℕ} {z : Zones} {range : Range}

/-- From 0 on up to 8 MiB or more the loop stands still. -/
theorem stop_lt_of_ends (hstop : range.stop < 2 ^ 64) (hzero : range.start = 0)
    (hends : (∃ fuel z', pmLoadZoneRange depth fuel z range = .ok z') ∨
      BlockFails depth z range) : range.stop < 2 * pageMaxSize := by
  by_contra hlarge
  have h0 : alignUp range.start pageMaxSize = 0 := by rw [hzero]; decide
  have hlt : alignUp range.start pageMaxSize < alignDown range.stop pageMaxSize := by
    rw [h0, alignDown]; dsimp only [pageMaxSize] at *; omega
  obtain ⟨hbound, -, -, hend⟩ := zoneBound hstop hlt
  rcases hends with ⟨fuel, z', hrun⟩ | ⟨-, s', c, f, hrounds, -, hlow, -⟩
  · rw [pmLoadZoneRange, loadZoneRange, if_neg (by omega)] at hrun
    rcases zoneLoop_low hrun with h | h
    · dsimp only [pageMaxSize] at *; omega
    · omega
  · have hat := eq_of_rounds (by omega) hrounds
    rw [Prod.mk.injEq] at hat
    omega

/-- A call ends if it starts at 1 MiB or above, or the bound of its loop is 0. -/
theorem pmLoadZoneRange_ends (hstop : range.stop < 2 ^ 64)
    (hstart : range.start + pageMaxSize < 2 ^ 64)
    (hzero : range.start = 0 → range.stop < 2 * pageMaxSize) :
    (∃ fuel z', pmLoadZoneRange depth fuel z range = .ok z') ∨ BlockFails depth z range := by
  rcases Nat.lt_or_ge (alignUp range.start pageMaxSize)
    (alignDown range.stop pageMaxSize) with hlt | hge
  · obtain ⟨⟨a, ha⟩, hup, -⟩ := zoneStart (show range.start < 2 ^ 64 by omega)
    obtain ⟨hbound, ⟨e, he⟩, hend, -⟩ := zoneBound hstop hlt
    rcases Nat.eq_zero_or_pos range.start with h0 | hpos
    · have hsmall := hzero h0
      refine Or.inl ⟨1, z, ?_⟩
      rw [pmLoadZoneRange, loadZoneRange, if_neg (by omega), zoneLoop, if_neg]
      dsimp only [pageMaxSize] at *
      omega
    · have hlow := hup (by omega)
      have hends : (∃ z', zoneLoop (loadBlock depth) (lastBlock range) (2 ^ 42 + 1) z
          (alignUp range.start pageMaxSize) = .ok z') ∨ BodyFails (loadBlock depth)
          (lastBlock range) z (alignUp range.start pageMaxSize) := by
        refine zoneLoop_ends ?_ (by rw [lastBlock]; omega) ?_
        · dsimp only [pageMaxSize] at *; omega
        · rw [lastBlock]; dsimp only [pageMaxSize] at *; omega
      refine hends.imp (fun ⟨z', hz'⟩ ↦ ⟨2 ^ 42 + 1, z', ?_⟩) fun hfails ↦ ⟨hlt, hfails⟩
      rw [pmLoadZoneRange, loadZoneRange, if_neg (by omega)]
      exact hz'
  · exact Or.inl ⟨0, z, by rw [pmLoadZoneRange, loadZoneRange, if_pos hge]⟩

/-- **The loop ends, and nothing wraps around, exactly for these ranges**: those that start more
than 4 MiB below the end of the address space, and, if they start at 0, end below 8 MiB.  Only a
block that does not return can keep the loop of such a range from reaching its bound. -/
theorem pmLoadZoneRange_ends_iff (depth : ℕ) (z : Zones) {range : Range}
    (hstart : range.start < 2 ^ 64) (hstop : range.stop < 2 ^ 64) :
    (NoWrap range ∧ ((∃ fuel z', pmLoadZoneRange depth fuel z range = .ok z') ∨
        BlockFails depth z range)) ↔
      range.start < 2 ^ 64 - pageMaxSize ∧
        (range.start = 0 → range.stop < 2 * pageMaxSize) := by
  constructor
  · rintro ⟨⟨hwrap, -⟩, hends⟩
    refine ⟨?_, fun hzero ↦ stop_lt_of_ends hstop hzero hends⟩
    dsimp only [pageMaxSize] at *
    omega
  · rintro ⟨hhigh, hzero⟩
    have hlt : range.start + pageMaxSize < 2 ^ 64 := by dsimp only [pageMaxSize] at *; omega
    refine ⟨⟨hlt, fun hloop ↦ ?_⟩, pmLoadZoneRange_ends hstop hlt hzero⟩
    have := (zoneBound hstop hloop).1
    omega

end Ends

/-! ### Four and eight MiB -/

/-- A machine with the pages of the kernel mapped, and nothing loaded yet. -/
def noZones : Zones := ⟨freshMachine oneFrame, []⟩

/-- A range without a whole block in it: nothing is to be loaded, and nothing is. -/
theorem pmLoadZoneRange_covers_iff_small :
    pmLoadZoneRange 0 0 noZones ⟨0x100000, pageMaxSize⟩ = .ok noZones ∧
      ∀ b, b ∈ noZones.written ↔ Wanted ⟨0x100000, pageMaxSize⟩ b := by
  have hrun : pmLoadZoneRange 0 0 noZones ⟨0x100000, pageMaxSize⟩ = .ok noZones := by
    rw [pmLoadZoneRange, loadZoneRange, if_pos (by decide)]
  refine ⟨hrun, ((pmLoadZoneRange_covers_iff (by decide) (by decide) rfl hrun).mpr ?_).2⟩
  rintro b ⟨-, -, h1, h2⟩
  dsimp only [pageMaxSize] at h1
  omega

/-- **The last block is left out**: here it is the only one. -/
theorem pmLoadZoneRange_drops_block :
    pmLoadZoneRange 0 1 noZones ⟨pageMaxSize, 2 * pageMaxSize⟩ = .ok noZones ∧
      Wanted ⟨pageMaxSize, 2 * pageMaxSize⟩ pageMaxSize ∧ pageMaxSize ∉ noZones.written := by
  refine ⟨?_, ⟨dvd_refl _, le_refl _, by decide, by decide⟩, List.not_mem_nil⟩
  rw [pmLoadZoneRange, loadZoneRange, if_neg (by decide), zoneLoop, if_neg (by decide)]

/-- The range of two blocks, with no memory yet. -/
theorem pmLoadZoneRange_ends_iff_twoBlocks :
    NoWrap ⟨pageMaxSize, 3 * pageMaxSize⟩ ∧
      ((∃ fuel z', pmLoadZoneRange 8 fuel noZones ⟨pageMaxSize, 3 * pageMaxSize⟩ = .ok z') ∨
        BlockFails 8 noZones ⟨pageMaxSize, 3 * pageMaxSize⟩) :=
  (pmLoadZoneRange_ends_iff 8 noZones (by decide) (by decide)).mpr ⟨by decide, by decide⟩

/-- **The first 8 MiB are never done with**: the loop goes round and round at 0, and loads
nothing. -/
theorem pmLoadZoneRange_never_ends :
    ¬ ((∃ fuel z', pmLoadZoneRange 8 fuel noZones ⟨0, 2 * pageMaxSize⟩ = .ok z') ∨
      BlockFails 8 noZones ⟨0, 2 * pageMaxSize⟩) := by
  intro hends
  exact absurd (stop_lt_of_ends (by decide) rfl hends) (lt_irrefl _)

end CubikOS

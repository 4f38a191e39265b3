import CubikOS.Mm.Slub

/-!
# The objects of one page

`__slab_SetPage` threads a list through the objects of a page, `__slab_AssignCpuSlab` puts the page
into the slab of a processor, and the calls of `__slab_AllocateObject` that follow take the objects
off the list.  An object belongs to its caller from then on, and the caller may write to all of it;
the links that are still to be followed lie in the objects that are left.

* `setPageLoop_spec` says what the list looks like.
* `PageInv.step` is what one call does, and `ObjectRun.inv` what a whole run comes to.
* `objectRun_objects` says which object each call returns, and that the last asks for a page.
-/

set_option autoImplicit false

namespace CubikOS

open Bytes

/-! ## The list -/

/-- What is assumed of a page that is cut into objects of `size` bytes. -/
structure Carved (virt size : ℕ) : Prop where
  /-- An object has room for a link. -/
  link_le : 8 ≤ size
  /-- The page has room for an object. -/
  size_le : size ≤ archPageSize
  /-- There is no page 0. -/
  virt_ne : virt ≠ 0
  /-- The page is a whole one. -/
  aligned : archPageSize ∣ virt
  /-- It lies in the address space. -/
  virt_lt : virt < 2 ^ 64

section Carved

variable {virt size : ℕ}

theorem Carved.end_le (hc : Carved virt size) : virt + archPageSize ≤ 2 ^ 64 := by
  obtain ⟨c, hc'⟩ := hc.aligned
  have := hc.virt_lt
  dsimp only [archPageSize] at *
  omega

/-- The objects lie in the page. -/
theorem Carved.object_le (hc : Carved virt size) {k : ℕ} (hk : k < archPageSize / size) :
    virt + k * size + size ≤ virt + archPageSize := by
  have hsize : 0 < size := by have := hc.link_le; omega
  have hle := (Nat.le_div_iff_mul_le hsize).mp hk
  rw [Nat.succ_mul] at hle
  omega

/-- So does the link of each. -/
theorem Carved.accessible (hc : Carved virt size) {s : SlabState}
    (hmap : s.mapped (virt / archPageSize) = true) {k : ℕ} (hk : k < archPageSize / size) :
    s.accessible (virt + k * size) = true := by
  have hle := hc.object_le hk
  have h8 := hc.link_le
  have hend := hc.end_le
  obtain ⟨c, hvirt⟩ := hc.aligned
  generalize k * size = o at *
  have h1 : (virt + o) / archPageSize = virt / archPageSize := by
    dsimp only [archPageSize] at *
    omega
  have h2 : (virt + o + 7) % 2 ^ 64 / archPageSize = virt / archPageSize := by
    dsimp only [archPageSize] at *
    omega
  rw [SlabState.accessible, h1, h2, hmap]
  rfl

/-- There is an object, and not more than 512. -/
theorem Carved.objects_bounds (hc : Carved virt size) :
    1 ≤ archPageSize / size ∧ archPageSize / size ≤ 512 := by
  have h8 := hc.link_le
  have hsize : 0 < size := by omega
  refine ⟨(Nat.le_div_iff_mul_le hsize).mpr (by rw [Nat.one_mul]; exact hc.size_le), ?_⟩
  exact (Nat.div_le_div_left h8 (by decide)).trans (by decide)

end Carved

/-- **The list that is threaded through the objects**: each names the next, and what lies before
them or from the last of them on is left alone. -/
theorem setPageLoop_spec {virt size n idx : ℕ} {s : SlabState} (hc : Carved virt size)
    (hmap : s.mapped (virt / archPageSize) = true) (hn : idx + n < archPageSize / size) :
    ∃ m, setPageLoop size virt n idx s = .ok { s with mem := m } ∧
      (∀ i, idx ≤ i → i < idx + n → readBytes m (virt + i * size) 8 = virt + (i + 1) * size) ∧
      ∀ a, a < 2 ^ 64 → a < virt + idx * size ∨ virt + (idx + n) * size ≤ a → m a = s.mem a := by
  induction n generalizing idx s with
  | zero => exact ⟨s.mem, rfl, fun i h1 h2 ↦ by omega, fun a _ _ ↦ rfl⟩
  | succ n ih =>
    have h8 := hc.link_le
    have hend := hc.end_le
    have hthis := hc.object_le (k := idx) (by omega)
    have hnext := hc.object_le (k := idx + 1) (by omega)
    have hmul : (idx + 1) * size = idx * size + size := Nat.succ_mul idx size
    have hwrite : write64 s ((virt + idx * size) % 2 ^ 64) ((virt + (idx + 1) * size) % 2 ^ 64) =
        .ok { s with mem := writeBytes s.mem (virt + idx * size) (virt + (idx + 1) * size) } := by
      rw [Nat.mod_eq_of_lt (by omega), Nat.mod_eq_of_lt (by omega), write64,
        if_pos (hc.accessible hmap (by omega))]
    obtain ⟨m, hrun, hlinks, hframe⟩ := ih
      (s := { s with mem := writeBytes s.mem (virt + idx * size) (virt + (idx + 1) * size) })
      hmap (show idx + 1 + n < archPageSize / size by omega)
    refine ⟨m, ?_, fun i h1 h2 ↦ ?_, fun a hlt ha ↦ ?_⟩
    · rw [setPageLoop, hwrite]
      exact hrun
    · rcases Nat.eq_or_lt_of_le h1 with rfl | hlt
      · -- the rounds that follow write behind this object
        have hsame : readBytes m (virt + idx * size) 8 =
            readBytes (writeBytes s.mem (virt + idx * size) (virt + (idx + 1) * size))
              (virt + idx * size) 8 :=
          readBytes_congr (by omega) fun b hb ↦ hframe _ (by omega) (Or.inl (by omega))
        rw [hsame, readBytes_writeBytes (by omega) (by omega)]
      · exact hlinks i hlt (by omega)
    · have hend : (idx + 1) * size ≤ (idx + (n + 1)) * size := Nat.mul_le_mul_right size (by omega)
      rw [hframe a hlt (ha.imp (by omega) fun hge ↦ by rwa [Nat.add_assoc, Nat.add_comm 1])]
      exact writeBytes_of_not_mem (by omega) hlt (ha.imp_right fun hge ↦ by omega)

/-! ## Taking the objects off the list -/

/-- The first object of the slab has been taken off both copies of the list, and counted. -/
def takeObject (s : SlabState) (cache : CacheIndex) (cpu : CpuIndex) (page : ℕ) : SlabState :=
  let next := readBytes s.mem (s.cpuSlab cache cpu).freelist 8
  (s.setCpuSlab cache cpu { s.cpuSlab cache cpu with freelist := next }).setPage page
    { s.page page with slabInuse := ((s.page page).slabInuse + 1) % 2 ^ 16, freelist := next }

/-- The invariant: `k` objects of the page have been taken, and the links of the others are as
they were written. -/
structure PageInv (s : SlabState) (cache : CacheIndex) (cpu : CpuIndex)
    (page virt size k : ℕ) : Prop where
  /-- The slab's copy of the list begins with object `k`. -/
  slab : s.cpuSlab cache cpu = ⟨virt + k * size, some page⟩
  /-- The page's copy of the list does too, and `k` objects are counted as taken. -/
  page : s.page page = ⟨k, archPageSize / size, virt + k * size⟩
  /-- The free objects are linked one to the next. -/
  link : ∀ i, k ≤ i → i + 1 < archPageSize / size →
    readBytes s.mem (virt + i * size) 8 = virt + (i + 1) * size
  /-- The page can be accessed. -/
  mapped : s.mapped (virt / archPageSize) = true

section Take

variable {s : SlabState} {cache : CacheIndex} {cpu : CpuIndex} {page virt size k : ℕ}

/-- A call that finds an object in the slab. -/
theorem slabAllocateObject_eq (supply : ℕ → PageGrant) (junk : Stack)
    (hI : PageInv s cache cpu page virt size k) (hc : Carved virt size)
    (hk : k < archPageSize / size) : slabAllocateObject supply junk s (some cache) cpu =
      if k + 1 = archPageSize / size then
        match slabGetPartialPage supply junk (takeObject s cache cpu page) cache with
        | .error f => .error f
        | .ok (page, s) => match slabAssignCpuSlab s cache cpu page with
          | .error f => .error f
          | .ok s => .ok (virt + k * size, s)
      else .ok (virt + k * size, takeObject s cache cpu page) := by
  have hne : virt + k * size ≠ 0 := by
    have := hc.virt_ne
    omega
  have hread : read64 s (virt + k * size) = .ok (readBytes s.mem (virt + k * size) 8) := by
    rw [read64, if_pos (hc.accessible hI.mapped hk)]
  have hbound := hc.objects_bounds.2
  have hcount : (k + 1) % 2 ^ 16 = k + 1 := Nat.mod_eq_of_lt (by omega)
  have hfree : (s.cpuSlab cache cpu).freelist = virt + k * size := by rw [hI.slab]
  rw [slabAllocateObject, slabAllocateLoop, hfree, if_pos hne, fastestPath.eq_def, hread,
    show (s.cpuSlab cache cpu).page = some page by rw [hI.slab]]
  dsimp only
  have htake : takeObject s cache cpu page = (s.setCpuSlab cache cpu { s.cpuSlab cache cpu with
      freelist := readBytes s.mem (virt + k * size) 8 }).setPage page { s.page page with
        slabInuse := ((s.page page).slabInuse + 1) % 2 ^ 16
        freelist := readBytes s.mem (virt + k * size) 8 } := by
    rw [takeObject, hfree]
  rw [htake]
  refine if_congr ?_ rfl rfl
  simp only [SlabState.setPage, SlabState.setCpuSlab, Function.update_self, hI.page, hcount]

/-- **Taking an object that is not the last** leaves the invariant intact. -/
theorem PageInv.step (hI : PageInv s cache cpu page virt size k) (hc : Carved virt size)
    (hk : k + 1 < archPageSize / size) :
    PageInv (takeObject s cache cpu page) cache cpu page virt size (k + 1) := by
  have hbound := hc.objects_bounds.2
  have hcount : (k + 1) % 2 ^ 16 = k + 1 := Nat.mod_eq_of_lt (by omega)
  have hnext := hI.link k (le_refl k) hk
  refine ⟨?_, ?_, fun i h1 h2 ↦ hI.link i (by omega) h2, hI.mapped⟩
  · simp only [takeObject, SlabState.setPage, SlabState.setCpuSlab, Function.update_self, hI.slab,
      hnext]
  · simp only [takeObject, SlabState.setPage, Function.update_self, hI.slab, hI.page, hnext, hcount]

/-- Nobody writes to the links that are still to be followed. -/
theorem PageInv.write (hI : PageInv s cache cpu page virt size k) (hc : Carved virt size)
    {m : ℕ → BitVec 8} (hmem : ∀ a, (∀ j, j < k → a ∉ Set.Ico (virt + j * size)
      (virt + j * size + size)) → m a = s.mem a) :
    PageInv { s with mem := m } cache cpu page virt size k := by
  refine ⟨hI.slab, hI.page, fun i h1 h2 ↦ ?_, hI.mapped⟩
  have hend := hc.end_le
  have hobject := hc.object_le (k := i) (by omega)
  have h8 := hc.link_le
  rw [← hI.link i h1 h2]
  refine readBytes_congr (by omega) fun b hb ↦ hmem _ fun j hj hin ↦ ?_
  -- the objects that were returned end where this one begins, or before
  have hle : (j + 1) * size ≤ i * size := Nat.mul_le_mul_right size (by omega)
  rw [Nat.succ_mul] at hle
  have := hin.2
  omega

end Take

/-! ## Runs -/

/-- Calls of `__slab_AllocateObject` on one cache and processor that return, and between them writes
into the objects returned so far.  The latest object comes first. -/
inductive ObjectRun (supply : ℕ → PageGrant) (cache : CacheIndex) (cpu : CpuIndex) (size : ℕ)
    (s₀ : SlabState) : List ℕ → SlabState → Prop
  | start : ObjectRun supply cache cpu size s₀ [] s₀
  | alloc {R : List ℕ} {s s' : SlabState} {junk : Stack} {addr : ℕ}
    (hrun : ObjectRun supply cache cpu size s₀ R s)
    (hcall : slabAllocateObject supply junk s (some cache) cpu = .ok (addr, s')) :
    ObjectRun supply cache cpu size s₀ (addr :: R) s'
  | write {R : List ℕ} {s : SlabState} {m : ℕ → BitVec 8}
    (hrun : ObjectRun supply cache cpu size s₀ R s)
    (hmem : ∀ a, (∀ o ∈ R, a ∉ Set.Ico o (o + size)) → m a = s.mem a) :
    ObjectRun supply cache cpu size s₀ R { s with mem := m }

/-- The first `k` objects of the page, in order. -/
def pageObjects (virt size k : ℕ) : List ℕ := (List.range k).map fun j ↦ virt + j * size

theorem pageObjects_succ (virt size k : ℕ) :
    pageObjects virt size (k + 1) = pageObjects virt size k ++ [virt + k * size] := by
  rw [pageObjects, List.range_succ, List.map_append, pageObjects]
  rfl

/-- What is kept of the caches, and of how often a page was asked for. -/
structure SameCaches (s u : SlabState) : Prop where
  /-- The sizes are the same. -/
  size : u.size = s.size
  /-- So is what is left of a page. -/
  reserved : u.reserved = s.reserved
  /-- The locks are as they were. -/
  lock : u.lock = s.lock
  /-- The nodes count as many partial pages. -/
  nrPartial : u.nrPartial = s.nrPartial
  /-- No page was asked for. -/
  taken : u.taken = s.taken

section Run

variable {supply : ℕ → PageGrant} {s₀ s : SlabState} {cache : CacheIndex} {cpu : CpuIndex}
  {page virt size : ℕ} {R : List ℕ}

/-- **What a run comes to**: the objects have been returned in order, and unless the page is used up
the invariant holds and no page was asked for. -/
theorem ObjectRun.inv (hrun : ObjectRun supply cache cpu size s₀ R s) (hc : Carved virt size)
    (h₀ : PageInv s₀ cache cpu page virt size 0) (hlen : R.length ≤ archPageSize / size) :
    R.reverse = pageObjects virt size R.length ∧ (R.length < archPageSize / size →
      PageInv s cache cpu page virt size R.length ∧ SameCaches s₀ s) := by
  induction hrun with
  | start => exact ⟨rfl, fun _ ↦ ⟨h₀, rfl, rfl, rfl, rfl, rfl⟩⟩
  | @alloc R s s' junk addr _ hcall ih =>
    rw [List.length_cons] at hlen
    obtain ⟨hR, hI⟩ := ih (by omega)
    obtain ⟨hI, hsame⟩ := hI (by omega)
    rw [slabAllocateObject_eq supply junk hI hc (by omega)] at hcall
    have haddr : addr = virt + R.length * size := by
      split at hcall
      · split at hcall
        · simp at hcall
        · split at hcall
          · simp at hcall
          · rw [Except.ok.injEq, Prod.mk.injEq] at hcall
            exact hcall.1.symm
      · rw [Except.ok.injEq, Prod.mk.injEq] at hcall
        exact hcall.1.symm
    refine ⟨?_, fun hlt ↦ ?_⟩
    · rw [List.reverse_cons, List.length_cons, pageObjects_succ, hR, haddr]
    · rw [List.length_cons] at hlt ⊢
      rw [if_neg (by omega), Except.ok.injEq, Prod.mk.injEq] at hcall
      rw [← hcall.2]
      exact ⟨hI.step hc hlt,
        ⟨hsame.size, hsame.reserved, hsame.lock, hsame.nrPartial, hsame.taken⟩⟩
  | @write R s m _ hmem ih =>
    obtain ⟨hR, hI⟩ := ih hlen
    refine ⟨hR, fun hlt ↦ ?_⟩
    obtain ⟨hI, hsame⟩ := hI hlt
    refine ⟨hI.write hc fun a ha ↦ hmem a fun o ho ↦ ?_,
      ⟨hsame.size, hsame.reserved, hsame.lock, hsame.nrPartial, hsame.taken⟩⟩
    rw [← List.mem_reverse, hR, pageObjects, List.mem_map] at ho
    obtain ⟨j, hj, rfl⟩ := ho
    exact ha j (List.mem_range.mp hj)

end Run

/-! ## A page that has just been installed -/

section Install

variable {s : SlabState} {cache : CacheIndex} {cpu : CpuIndex} {page virt : ℕ}

/-- How many objects there are. -/
theorem objects_eq (hc : Carved virt (s.size cache))
    (hreserved : s.reserved cache = archPageSize % s.size cache) :
    s.objects cache = archPageSize / s.size cache := by
  have hbound := hc.objects_bounds.2
  have hsize : 0 < s.size cache := by
    have := hc.link_le
    omega
  have hused : archPageSize - archPageSize % s.size cache =
      s.size cache * (archPageSize / s.size cache) := by
    have := Nat.div_add_mod archPageSize (s.size cache)
    omega
  rw [SlabState.objects, hreserved, hused, Nat.mul_div_cancel_left _ hsize]
  exact Nat.mod_eq_of_lt (by omega)

/-- **A page is cut up and installed.** -/
theorem pageInv_of_install (cpu : CpuIndex) (page : ℕ) (hc : Carved virt (s.size cache))
    (hreserved : s.reserved cache = archPageSize % s.size cache)
    (hmap : s.mapped (virt / archPageSize) = true) : ∃ s₁ s₂,
    slabSetPage s cache page virt = .ok s₁ ∧
    s₁.page page = ⟨0, archPageSize / s.size cache, virt⟩ ∧
    slabAssignCpuSlab s₁ cache cpu (some page) = .ok s₂ ∧
    PageInv s₂ cache cpu page virt (s.size cache) 0 ∧ SameCaches s s₂ ∧ s₁.taken = s.taken := by
  have hpos := hc.objects_bounds.1
  have hbound : setPageBound (s.objects cache) = archPageSize / s.size cache - 1 := by
    rw [setPageBound, objects_eq hc hreserved, if_neg (by omega)]
  obtain ⟨m, hrun, hlinks, -⟩ := setPageLoop_spec
    (s := s.setPage page ⟨0, s.objects cache, virt⟩) (n := archPageSize / s.size cache - 1) hc hmap
    (show 0 + (archPageSize / s.size cache - 1) < archPageSize / s.size cache by omega)
  generalize hcut : ({ s.setPage page ⟨0, s.objects cache, virt⟩ with mem := m } : SlabState) = s₁
    at hrun
  have hdesc : s₁.page page = ⟨0, archPageSize / s.size cache, virt⟩ := by
    rw [← hcut, ← objects_eq hc hreserved]
    exact Function.update_self page _ _
  have hkept : SameCaches s s₁ := by rw [← hcut]; exact ⟨rfl, rfl, rfl, rfl, rfl⟩
  refine ⟨s₁, assignState s₁ cache cpu page, ?_, hdesc, rfl, ⟨?_, ?_, ?_, ?_⟩,
    ⟨hkept.size, hkept.reserved, hkept.lock, hkept.nrPartial, hkept.taken⟩, hkept.taken⟩
  · rw [slabSetPage, hbound, hrun]
  · simp only [assignState, SlabState.setCpuSlab, Function.update_self, hdesc, Nat.zero_mul,
      Nat.add_zero]
  · rw [Nat.zero_mul, Nat.add_zero]
    exact hdesc
  · intro i _ h2
    rw [← hcut]
    exact hlinks i (Nat.zero_le i) (by omega)
  · rw [← hcut]
    exact hmap

/-- **A page that is requested** is cut up, if `AllocatePages` gives one. -/
theorem slabRequestPage_eq {supply : ℕ → PageGrant} (hpage : (supply s.taken).page = some page)
    (hc : Carved (supply s.taken).virt (s.size cache))
    (hreserved : s.reserved cache = archPageSize % s.size cache) : ∃ s',
    slabRequestPage supply s cache = .ok (page, s') ∧
    s'.page page = ⟨0, archPageSize / s.size cache, (supply s.taken).virt⟩ ∧
    s'.mapped ((supply s.taken).virt / archPageSize) = true ∧ s'.taken = s.taken + 1 := by
  have hmap : (s.supply (supply s.taken)).mapped ((supply s.taken).virt / archPageSize) = true :=
    Function.update_self _ _ _
  obtain ⟨s₁, s₂, hset, hdesc, hassign, hI, -, htaken⟩ :=
    @pageInv_of_install (s.supply (supply s.taken)) cache _ 0 page hc hreserved hmap
  refine ⟨s₁, ?_, hdesc, ?_, htaken⟩
  · simp only [slabRequestPage, if_neg hc.virt_ne, hpage, hset]
  · have h1 := hI.mapped
    rw [slabAssignCpuSlab, Except.ok.injEq] at hassign
    rwa [← hassign] at h1

/-- The cache can be supplied with a page: its node is unlocked and has none, and `AllocatePages`
gives one that has a descriptor. -/
structure CacheSupplied (supply : ℕ → PageGrant) (s : SlabState) (cache : CacheIndex) : Prop where
  /-- The lock is free. -/
  lock : s.lock cache = 0
  /-- The node has no partial page. -/
  nrPartial : s.nrPartial cache = 0
  /-- There is a descriptor. -/
  page : ∃ page, (supply s.taken).page = some page
  /-- There is a page. -/
  virt_ne : (supply s.taken).virt ≠ 0
  /-- It is a whole one. -/
  aligned : archPageSize ∣ (supply s.taken).virt
  /-- It lies in the address space. -/
  virt_lt : (supply s.taken).virt < 2 ^ 64

theorem CacheSupplied.of_sameCaches {supply : ℕ → PageGrant} {u : SlabState}
    (h : CacheSupplied supply s cache) (hsame : SameCaches s u) : CacheSupplied supply u cache := by
  refine ⟨by rw [hsame.lock, h.lock], by rw [hsame.nrPartial, h.nrPartial], ?_, ?_, ?_, ?_⟩ <;>
    rw [hsame.taken]
  exacts [h.page, h.virt_ne, h.aligned, h.virt_lt]

/-- **The last object of a page is returned** if another page can be supplied. -/
theorem slabAllocateObject_last {supply : ℕ → PageGrant} (junk : Stack) {u : SlabState} {k : ℕ}
    (hI : PageInv u cache cpu page virt (u.size cache) k) (hc : Carved virt (u.size cache))
    (hreserved : u.reserved cache = archPageSize % u.size cache)
    (hk : k + 1 = archPageSize / u.size cache) (hsupply : CacheSupplied supply u cache) : ∃ u',
    slabAllocateObject supply junk u (some cache) cpu = .ok (virt + k * u.size cache, u') ∧
      u'.taken = u.taken + 1 := by
  obtain ⟨new, hnew⟩ := hsupply.page
  have hc' : Carved (supply u.taken).virt (u.size cache) :=
    ⟨hc.link_le, hc.size_le, hsupply.virt_ne, hsupply.aligned, hsupply.virt_lt⟩
  obtain ⟨w, hrequest, -, -, htaken⟩ :=
    @slabRequestPage_eq (takeObject u cache cpu page) cache new supply hnew hc' hreserved
  have hpartial : slabGetPartialPage supply junk (takeObject u cache cpu page) cache =
      .ok (some new, w) := by
    have hlock : (takeObject u cache cpu page).lock cache = 0 := hsupply.lock
    have hnone : (takeObject u cache cpu page).nrPartial cache = 0 := hsupply.nrPartial
    rw [slabGetPartialPage, if_neg (not_not.mpr hlock), if_pos hnone, hrequest]
  refine ⟨assignState w cache cpu new, ?_, htaken⟩
  rw [slabAllocateObject_eq supply junk hI hc (by omega), if_pos hk, hpartial]
  rfl

/-- The objects of a page do not overlap. -/
theorem Carved.disjoint {size i j : ℕ} (hij : i ≠ j) :
    Disjoint (Set.Ico (virt + i * size) (virt + i * size + size))
      (Set.Ico (virt + j * size) (virt + j * size + size)) := by
  rw [Set.disjoint_left]
  rintro a ⟨h1, h2⟩ ⟨h3, h4⟩
  rcases Nat.lt_or_gt_of_ne hij with h | h
  · have hle : (i + 1) * size ≤ j * size := Nat.mul_le_mul_right size h
    rw [Nat.succ_mul] at hle
    omega
  · have hle : (j + 1) * size ≤ i * size := Nat.mul_le_mul_right size h
    rw [Nat.succ_mul] at hle
    omega

/-- **A page yields its objects once, in order.**  A page is cut up for a cache of any size that
fits and is installed in the slab of a processor.  However the callers write to the objects they
have, the calls that follow return one object after the other.  All but the last do so without
asking for anything.  The last asks for another page, and returns the last object when one can be
supplied. -/
theorem objectRun_objects (supply : ℕ → PageGrant) (cpu : CpuIndex) (page : ℕ)
    (hc : Carved virt (s.size cache))
    (hreserved : s.reserved cache = archPageSize % s.size cache)
    (hmap : s.mapped (virt / archPageSize) = true) : ∃ s₁ s₂,
    slabSetPage s cache page virt = .ok s₁ ∧
    slabAssignCpuSlab s₁ cache cpu (some page) = .ok s₂ ∧
    (s₁.page page).slabObjects = archPageSize / s.size cache ∧
    (∀ k, k < archPageSize / s.size cache →
      virt + k * s.size cache + s.size cache ≤ virt + archPageSize) ∧
    (∀ i j, i ≠ j → Disjoint
      (Set.Ico (virt + i * s.size cache) (virt + i * s.size cache + s.size cache))
      (Set.Ico (virt + j * s.size cache) (virt + j * s.size cache + s.size cache))) ∧
    ∀ R u, ObjectRun supply cache cpu (s.size cache) s₂ R u →
      R.length < archPageSize / s.size cache →
      R.reverse = pageObjects virt (s.size cache) R.length ∧
      ∀ junk,
        (R.length + 1 < archPageSize / s.size cache → ∃ u',
          slabAllocateObject supply junk u (some cache) cpu =
            .ok (virt + R.length * s.size cache, u') ∧ u'.taken = u.taken) ∧
        (R.length + 1 = archPageSize / s.size cache → CacheSupplied supply s cache → ∃ u',
          slabAllocateObject supply junk u (some cache) cpu =
            .ok (virt + R.length * s.size cache, u') ∧ u'.taken = u.taken + 1) := by
  obtain ⟨s₁, s₂, hset, hdesc, hassign, h₀, hsame₂, -⟩ :=
    pageInv_of_install cpu page hc hreserved hmap
  refine ⟨s₁, s₂, hset, hassign, by rw [hdesc], fun k hk ↦ hc.object_le hk,
    fun i j hij ↦ Carved.disjoint hij, fun R u hrun hlen ↦ ?_⟩
  obtain ⟨hR, hI⟩ := hrun.inv hc h₀ (Nat.le_of_lt hlen)
  obtain ⟨hI, hsame⟩ := hI hlen
  have hsize : u.size = s.size := hsame.size.trans hsame₂.size
  refine ⟨hR, fun junk ↦ ⟨fun hlt ↦ ?_, fun heq hsupply ↦ ?_⟩⟩
  · refine ⟨takeObject u cache cpu page, ?_, rfl⟩
    rw [slabAllocateObject_eq supply junk hI hc hlen, if_neg (by omega)]
  · rw [← hsize] at hI hc heq ⊢
    refine slabAllocateObject_last junk hI hc ?_ heq
      ((hsupply.of_sameCaches hsame₂).of_sameCaches hsame)
    rw [hsame.reserved, hsame₂.reserved, hreserved, hsize]

end Install

/-- Caches of the sizes of the table, with the first page of the topmost 2 GiB mapped. -/
def onePageMapped : SlabState :=
  { emptyCaches with mapped := fun n ↦ decide (n = 0xFFFFFFFF80000) }

theorem carved_onePageMapped (cache : CacheIndex) (h8 : 8 ≤ blockSize cache)
    (hle : blockSize cache ≤ archPageSize) :
    Carved 0xFFFFFFFF80000000 (onePageMapped.size cache) :=
  ⟨h8, hle, by decide, by decide, by decide⟩

/-- The pages that follow the one that is mapped. -/
def nextPages (i : ℕ) : PageGrant := ⟨0xFFFFFFFF80001000 + i * archPageSize, some i, id⟩

/-- Both of the objects of 2048 bytes.  The owner of the first writes over the link in it, and the
second call asks for another page. -/
theorem objectRun_objects_both : ∃ s₁ s₂ u u',
    slabSetPage onePageMapped 13 5 0xFFFFFFFF80000000 = .ok s₁ ∧
    slabAssignCpuSlab s₁ 13 0 (some 5) = .ok s₂ ∧
    slabAllocateObject nextPages emptyStack s₂ (some 13) 0 = .ok (0xFFFFFFFF80000000, u) ∧
    slabAllocateObject nextPages emptyStack
        { u with mem := Function.update u.mem 0xFFFFFFFF80000000 0xFF#8 } (some 13) 0 =
      .ok (0xFFFFFFFF80000800, u') ∧
    u.taken = s₂.taken ∧ u'.taken = u.taken + 1 := by
  obtain ⟨s₁, s₂, hset, hassign, -, -, -, hobjects⟩ := objectRun_objects nextPages 0 5
    (carved_onePageMapped 13 (by decide) (by decide)) (by decide) (by decide)
  obtain ⟨u, hcall, htaken⟩ :=
    ((hobjects [] s₂ ObjectRun.start (by decide)).2 emptyStack).1 (by decide)
  have hsupply : CacheSupplied nextPages onePageMapped 13 :=
    ⟨rfl, rfl, ⟨0, rfl⟩, by decide, by decide, by decide⟩
  have hrun : ObjectRun nextPages 13 0 (onePageMapped.size 13) s₂ [0xFFFFFFFF80000000]
      { u with mem := Function.update u.mem 0xFFFFFFFF80000000 0xFF#8 } := by
    refine (ObjectRun.start.alloc hcall).write fun a ha ↦ Function.update_of_ne ?_ _ _
    rintro rfl
    exact ha _ List.mem_cons_self ⟨by decide, by decide⟩
  obtain ⟨u', hcall', htaken'⟩ := ((hobjects _ _ hrun (by decide)).2 emptyStack).2 (by decide)
    hsupply
  exact ⟨s₁, s₂, u, u', hset, hassign, hcall, hcall', htaken, htaken'⟩

/-- There are no pages left. -/
def noPages : ℕ → PageGrant := fun _ ↦ ⟨0, none, id⟩

/-- **An object that is there and is not returned**: the page holds one object, there is no other
page, and the call that should return the object halts the kernel. -/
theorem objectRun_panics : Carved 0xFFFFFFFF80000000 (onePageMapped.size 14) ∧
    onePageMapped.reserved 14 = archPageSize % onePageMapped.size 14 ∧
    archPageSize / onePageMapped.size 14 = 1 ∧
    ∃ s₁ s₂, slabSetPage onePageMapped 14 5 0xFFFFFFFF80000000 = .ok s₁ ∧
      slabAssignCpuSlab s₁ 14 0 (some 5) = .ok s₂ ∧
      ∀ u, slabAllocateObject noPages emptyStack s₂ (some 14) 0 ≠ .ok (0xFFFFFFFF80000000, u) := by
  refine ⟨carved_onePageMapped 14 (by decide) (by decide), by decide, by decide, _, _, rfl, rfl,
    fun u hcall ↦ ?_⟩
  have hpanic : (slabAllocateObject noPages emptyStack (assignState
      (onePageMapped.setPage 5 ⟨0, 1, 0xFFFFFFFF80000000⟩) 14 0 5) (some 14) 0).map Prod.fst =
        .error .panic := by
    decide +kernel
  have hsame := congrArg (Except.map Prod.fst) hcall
  exact absurd (hpanic.symm.trans hsame) (by simp [Except.map])

end CubikOS

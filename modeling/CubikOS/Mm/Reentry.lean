import CubikOS.Mm.LoadVm

/-!
# MapVirtualAddress while it makes a table

`MapVirtualAddress` puts a directory entry in use before it has a table for it, and has
`AllocatePages(kernel, 1)` supply the page of the table.  That call maps the page it supplies, by a
call of `MapVirtualAddress` that finds the directory entry in use and no table.  If the page lies
in that very region, or in another one whose table is being made, the missing table is written to.

* `allocatePagesWith_null_iff` says when that happens within one allocation, and
  `mapVirtualAddress_null_iff` within one mapping.
* `allocatePagesWith_fuel` says that the calls do not nest deeper than there are directory entries
  that are not in use.
* `runCalls_safe_iff` puts the two together over every sequence of calls.
-/

set_option autoImplicit false

namespace CubikOS

/-! ## The allocations within a call -/

section Functions

variable {ρ : Type} (A : PageSource ρ)

/-- The address that `VM_AllocatePages` answers with, if `AllocatePages(kernel, 1)` is called. -/
def PageSource.pageAt (u : Paging ρ) : Option ℕ :=
  match A.pm u.rest 0 with
  | .ok (some _, r) =>
    match A.vm r 1 with
    | .ok (virt, _) => some virt
    | .error _ => none
  | _ => none

/-- The allocators return.  They may have nothing to give. -/
structure PageSource.Answers : Prop where
  /-- `PM_AllocatePages` returns. -/
  pm : ∀ r order, ∃ phys r', A.pm r order = .ok (phys, r')
  /-- `VM_AllocatePages` returns. -/
  vm : ∀ r n, ∃ virt r', A.vm r n = .ok (virt, r')

/-- The table for `virt` is being made: its directory entry is in use and has no table. -/
def Pending (s : Paging ρ) (virt : ℕ) : Prop :=
  pml4GetIndex virt = topmost ∧ (s.dir (pdptGetIndex virt) (pdirGetIndex virt)).present = true ∧
    s.pointer (pdptGetIndex virt) (pdirGetIndex virt) = none

/-- The page for a table is put where a table is being made. -/
def BadAnswer (u : Paging ρ) : Prop := ∃ virt, A.pageAt u = some virt ∧ Pending u virt

/-- The states in which `AllocatePages(kernel, 1)` is called while the entry for `virt` is found.
`askedWithin` lists those of such a call itself. -/
def findAsked (askedWithin : Paging ρ → List (Paging ρ)) (s : Paging ρ) (virt flags : ℕ) :
    List (Paging ρ) :=
  match vmGetPage s virt with
  | some _ => []
  | none =>
    if !(s.dir (pdptGetIndex virt) (pdirGetIndex virt)).present then
      s.openDir virt flags :: askedWithin (s.openDir virt flags)
    else []

/-- The states in which `MapVirtualAddress(map, phys, virt, amount, flags)` calls
`AllocatePages(kernel, 1)`. -/
def mapAsked (allocatePages : Paging ρ → Except Fault (ℕ × Paging ρ))
    (askedWithin : Paging ρ → List (Paging ρ)) : ℕ → Paging ρ → ℕ → ℕ → ℕ → List (Paging ρ)
  | 0, _, _, _, _ => []
  | amount + 1, s, phys, virt, flags =>
    if pml4GetIndex virt = topmost then
      findAsked askedWithin s virt flags ++
        match findEntry allocatePages s virt flags with
        | .error _ => []
        | .ok (page, s) =>
          mapAsked allocatePages askedWithin amount (s.setEntry page (mapEntry phys flags))
            ((phys + archPageSize) % 2 ^ 64) ((virt + archPageSize) % 2 ^ 64) flags
    else []

/-- The states in which `AllocatePages(kernel, amount)`, `amount` being rounded, calls itself. -/
def roundedAsked (again : Paging ρ → Except Fault (ℕ × Paging ρ))
    (askedWithin : Paging ρ → List (Paging ρ)) (s : Paging ρ) (amount : ℕ) : List (Paging ρ) :=
  match A.pm s.rest (pageSizeOrder amount) with
  | .ok (some phys, r) =>
    match A.vm r amount with
    | .ok (virt, r) => mapAsked again askedWithin amount { s with rest := r } phys virt kernelFlags
    | .error _ => []
  | _ => []

/-- The states in which `AllocatePages(kernel, amount)` calls itself. -/
def allocAsked : ℕ → Paging ρ → ℕ → List (Paging ρ)
  | 0, _, _ => []
  | fuel + 1, s, amount =>
    roundedAsked A (fun s ↦ allocatePagesWith A fuel s 1) (fun s ↦ allocAsked fuel s 1) s
      (pageSizeAlign amount)

variable {A} {u : Paging ρ} {phys virt : ℕ} {r r' : ρ}

theorem PageSource.pageAt_eq (hpm : A.pm u.rest 0 = .ok (some phys, r))
    (hvm : A.vm r 1 = .ok (virt, r')) : A.pageAt u = some virt := by
  rw [PageSource.pageAt, hpm]
  simp only [hvm]

/-- What a single page asks for. -/
theorem mapAsked_one {again : Paging ρ → Except Fault (ℕ × Paging ρ)}
    {asked : Paging ρ → List (Paging ρ)} {flags : ℕ} (hindex : pml4GetIndex virt = topmost) :
    mapAsked again asked 1 u phys virt flags = findAsked asked u virt flags := by
  rw [mapAsked, if_pos hindex]
  rcases findEntry again u virt flags with f | ⟨page, w⟩ <;> simp [mapAsked]

theorem allocAsked_one (fuel : ℕ) (hpm : A.pm u.rest 0 = .ok (some phys, r))
    (hvm : A.vm r 1 = .ok (virt, r')) (hindex : pml4GetIndex virt = topmost) :
    allocAsked A (fuel + 1) u 1 =
      findAsked (fun w ↦ allocAsked A fuel w 1) { u with rest := r' } virt kernelFlags := by
  have hpm' : A.pm u.rest (pageSizeOrder 1) = .ok (some phys, r) := hpm
  rw [allocAsked, show pageSizeAlign 1 = 1 from rfl, roundedAsked, hpm']
  simp only [hvm]
  exact mapAsked_one hindex

end Functions

/-! ## How deep the calls nest -/

section Fuel

variable {ρ : Type} {s s' : Paging ρ}

/-- The directory entries that are not in use. -/
def Paging.absent (s : Paging ρ) : Set (Fin 512 × Fin 512) :=
  {p | (s.dir p.1 p.2).present = false}

theorem mem_absent {p : Fin 512 × Fin 512} :
    p ∈ s.absent ↔ (s.dir p.1 p.2).present = false := Iff.rfl

theorem ncard_absent_le (s : Paging ρ) : s.absent.ncard ≤ 2 ^ 18 := by
  have hcard := Set.ncard_le_ncard (Set.subset_univ s.absent) Set.finite_univ
  rwa [Set.ncard_univ, Nat.card_prod, Nat.card_fin] at hcard

/-- One fewer when an entry is put in use. -/
theorem ncard_absent_openDir {virt flags : ℕ}
    (h : (s.dir (pdptGetIndex virt) (pdirGetIndex virt)).present = false) :
    (s.openDir virt flags).absent.ncard < s.absent.ncard := by
  have hsub : (s.openDir virt flags).absent ⊆ s.absent := by
    intro p hp
    rw [mem_absent, Paging.openDir, setDir_dir] at hp
    split at hp
    · simp at hp
    · exact hp
  refine Set.ncard_lt_ncard (Set.ssubset_iff_subset_ne.mpr ⟨hsub, fun heq ↦ ?_⟩) (Set.toFinite _)
  have hmem : (pdptGetIndex virt, pdirGetIndex virt) ∈ s.absent := h
  rw [← heq, mem_absent, Paging.openDir, setDir_dir, if_pos ⟨rfl, rfl⟩] at hmem
  simp at hmem

/-- An entry that is in use stays in use. -/
theorem Writes.ncard_absent_le {log : List Mapping} (h : Writes s log s') :
    s'.absent.ncard ≤ s.absent.ncard := by
  refine Set.ncard_le_ncard (fun p hp ↦ ?_) (Set.toFinite _)
  rw [mem_absent] at hp ⊢
  cases h.region p.1 p.2 with
  | kept _ hdir => rwa [hdir] at hp
  | made _ habsent => exact habsent

variable {A : PageSource ρ} {fuel virt flags n phys : ℕ}

/-- A mapping does not nest deeper than the allocations within. -/
theorem mapVirtualAddress_fuel
    (hfuel : ∀ u, u.absent.ncard < fuel → allocatePagesWith A fuel u 1 ≠ .error .outOfFuel)
    (hs : s.absent.ncard ≤ fuel) (hv : pml4GetIndex virt = topmost → InKernel virt) :
    mapVirtualAddress (fun u ↦ allocatePagesWith A fuel u 1) n s phys virt flags ≠
      .error .outOfFuel := by
  induction n generalizing s phys virt with
  | zero => simp [mapVirtualAddress]
  | succ n ih =>
    rw [mapVirtualAddress]
    split
    · rename_i hindex
      have hk := hv hindex
      split
      · rename_i f hfind
        obtain ⟨-, ⟨-, rfl⟩ | ⟨habsent, halloc⟩⟩ :=
          findEntry_error_cases hk (allocatePagesWith_ne_zero A fuel) hfind
        · simp
        · intro heq
          rw [Except.error.injEq] at heq
          rw [heq] at halloc
          exact hfuel _ (lt_of_lt_of_le (ncard_absent_openDir habsent) hs) halloc
      · rename_i page u hfind
        refine ih ?_ fun hindex' ↦ ?_
        · have hround := round_writes phys (allocatePagesWith_writes A fuel) hk hfind
          exact hround.ncard_absent_le.trans hs
        · rw [(inKernel_next hk hindex').1]
          exact (inKernel_next hk hindex').2
    · simp

/-- What an answer of `VM_AllocatePages` is. -/
theorem PageSource.inKernel {r r' : ρ} (h : A.vm r n = .ok (virt, r'))
    (hindex : pml4GetIndex virt = topmost) : InKernel virt := by
  rcases A.vm_kernel r n virt r' h with rfl | ⟨hbase, hlt⟩
  · exact absurd hindex (by decide)
  · exact ⟨le_trans (by decide) hbase, hlt⟩

theorem map_eq_error {ε α β : Type} {x : Except ε α} {g : α → β} {e : ε} :
    x.map g = .error e ↔ x = .error e := by
  cases x <;> simp [Except.map]

/-- **What an allocation comes to**: there is no frame, or it is a mapping. -/
theorem allocatePagesWith_cases (hA : A.Answers) (fuel : ℕ) (u : Paging ρ) (amount : ℕ) :
    (∃ r, A.pm u.rest (pageSizeOrder (pageSizeAlign amount)) = .ok (none, r) ∧
      allocatePagesWith A (fuel + 1) u amount = .error .panic ∧
      allocAsked A (fuel + 1) u amount = []) ∨
    ∃ phys virt r r', A.pm u.rest (pageSizeOrder (pageSizeAlign amount)) = .ok (some phys, r) ∧
      A.vm r (pageSizeAlign amount) = .ok (virt, r') ∧
      allocatePagesWith A (fuel + 1) u amount =
        (mapVirtualAddress (fun w ↦ allocatePagesWith A fuel w 1) (pageSizeAlign amount)
          { u with rest := r' } phys virt kernelFlags).map
            (fun w ↦ (virt, { w with rest := A.charge w.rest (pageSizeAlign amount) })) ∧
      allocAsked A (fuel + 1) u amount =
        mapAsked (fun w ↦ allocatePagesWith A fuel w 1) (fun w ↦ allocAsked A fuel w 1)
          (pageSizeAlign amount) { u with rest := r' } phys virt kernelFlags := by
  rw [allocatePagesWith, allocAsked]
  generalize pageSizeAlign amount = n
  rw [allocateRoundedWith, roundedAsked]
  obtain ⟨_ | phys, r, hpm⟩ := hA.pm u.rest (pageSizeOrder n)
  · exact Or.inl ⟨r, hpm, by rw [hpm], by rw [hpm]⟩
  · obtain ⟨virt, r', hvm⟩ := hA.vm r n
    refine Or.inr ⟨phys, virt, r, r', hpm, hvm, ?_, ?_⟩
    · rw [hpm]
      dsimp only
      rcases hmap : mapVirtualAddress (fun w ↦ allocatePagesWith A fuel w 1) n
        { u with rest := r' } phys virt kernelFlags with f | w
      · exact mapFramesWith_of_error (s := { u with rest := r }) hvm hmap
      · exact mapFramesWith_of_ok (s := { u with rest := r }) hvm hmap
    · rw [hpm]
      simp only [hvm]

/-- **The calls do not nest deeper than there are directory entries that are not in use.** -/
theorem allocatePagesWith_fuel (hA : A.Answers) (u : Paging ρ) (amount : ℕ)
    (hfuel : u.absent.ncard < fuel) : allocatePagesWith A fuel u amount ≠ .error .outOfFuel := by
  induction fuel generalizing u amount with
  | zero => exact absurd hfuel (Nat.not_lt_zero _)
  | succ fuel ih =>
    rcases allocatePagesWith_cases hA fuel u amount with
      ⟨r, -, hcall, -⟩ | ⟨phys, virt, r, r', -, hvm, hcall, -⟩
    · rw [hcall]
      simp
    · have hmap : mapVirtualAddress (fun w ↦ allocatePagesWith A fuel w 1) (pageSizeAlign amount)
          { u with rest := r' } phys virt kernelFlags ≠ .error .outOfFuel :=
        mapVirtualAddress_fuel (fun w ↦ ih w 1) (Nat.le_of_lt_succ hfuel) (PageSource.inKernel hvm)
      rwa [hcall, Ne, map_eq_error]

end Fuel

/-! ## When a missing table is written to -/

section Null

variable {ρ : Type} {A : PageSource ρ} {s : Paging ρ} {fuel virt flags n phys : ℕ}

theorem findAsked_of_some {asked : Paging ρ → List (Paging ρ)} {page : EntryRef}
    (h : vmGetPage s virt = some page) : findAsked asked s virt flags = [] := by
  rw [findAsked, h]

theorem findAsked_of_none {asked : Paging ρ → List (Paging ρ)} (h : vmGetPage s virt = none) :
    findAsked asked s virt flags =
      if !(s.dir (pdptGetIndex virt) (pdirGetIndex virt)).present then
        s.openDir virt flags :: asked (s.openDir virt flags)
      else [] := by
  rw [findAsked, h]

/-- Finding the entry for an address fails when its own table is being made, or when the allocation
of a page for it fails. -/
theorem findEntry_null_iff (flags : ℕ) (hv : InKernel virt)
    (hwithin : ∀ u, u.absent.ncard < s.absent.ncard →
      (allocatePagesWith A fuel u 1 = .error .nullDereference ↔
        ∃ w ∈ u :: allocAsked A fuel u 1, BadAnswer A w)) :
    findEntry (fun u ↦ allocatePagesWith A fuel u 1) s virt flags = .error .nullDereference ↔
      Pending s virt ∨
        ∃ w ∈ findAsked (fun u ↦ allocAsked A fuel u 1) s virt flags, BadAnswer A w := by
  rcases hget : vmGetPage s virt with _ | page
  · have hnone := (vmGetPage_eq_none hv).mp hget
    rw [findAsked_of_none hget, Pending]
    rcases hdir : (s.dir (pdptGetIndex virt) (pdirGetIndex virt)).present with _ | _
    · simp only [Bool.false_eq_true, false_and, and_false, false_or, Bool.not_false, if_true]
      rw [← hwithin _ (ncard_absent_openDir hdir)]
      rcases halloc : allocatePagesWith A fuel (s.openDir virt flags) 1 with f | ⟨t, u⟩
      · rw [findEntry_of_absent_error hget hdir halloc]
        simp
      · rw [findEntry_of_absent hget hdir halloc (allocatePagesWith_ne_zero A fuel _ _ _ halloc)]
        simp
    · rw [findEntry_of_present hget hdir hnone]
      simp [hv.pml4GetIndex, hnone]
  · have hpointer := ((vmGetPage_eq_some hv).mp hget).1
    rw [findAsked_of_some hget, findEntry, hget, Pending, hpointer]
    simp

/-- **When an allocation within writes to a missing table**: one of the pages supplied on the way,
its own or one further within, lies where a table is being made. -/
theorem allocatePagesWith_null_iff (hA : A.Answers) (u : Paging ρ) (hfuel : u.absent.ncard < fuel) :
    allocatePagesWith A fuel u 1 = .error .nullDereference ↔
      ∃ w ∈ u :: allocAsked A fuel u 1, BadAnswer A w := by
  induction fuel generalizing u with
  | zero => exact absurd hfuel (Nat.not_lt_zero _)
  | succ fuel ih =>
    simp only [List.mem_cons, exists_eq_or_imp]
    rcases allocatePagesWith_cases hA fuel u 1 with
      ⟨r, hpm, hcall, hasked⟩ | ⟨phys, virt, r, r', hpm, hvm, hcall, hasked⟩
    · have hpage : A.pageAt u = none := by
        have hpm' : A.pm u.rest 0 = .ok (none, r) := hpm
        rw [PageSource.pageAt, hpm']
      rw [hcall, hasked, BadAnswer, hpage]
      simp
    · have hpage : A.pageAt u = some virt := PageSource.pageAt_eq hpm hvm
      have hbad : BadAnswer A u ↔ Pending u virt := by
        rw [BadAnswer, hpage]
        simp
      rw [hcall, map_eq_error, hasked, hbad, show pageSizeAlign 1 = 0 + 1 from rfl,
        mapVirtualAddress, mapAsked]
      split
      · rename_i hindex
        have hwithin : findEntry (fun w ↦ allocatePagesWith A fuel w 1) { u with rest := r' } virt
            kernelFlags = .error .nullDereference ↔
              Pending u virt ∨ ∃ w ∈ findAsked (fun w ↦ allocAsked A fuel w 1)
                { u with rest := r' } virt kernelFlags, BadAnswer A w :=
          findEntry_null_iff (s := { u with rest := r' }) kernelFlags
            (PageSource.inKernel hvm hindex)
            fun w hw ↦ ih w (lt_of_lt_of_le hw (Nat.le_of_lt_succ hfuel))
        rcases hfind : findEntry (fun w ↦ allocatePagesWith A fuel w 1) { u with rest := r' } virt
          kernelFlags with f | ⟨page, w⟩
        · rw [hfind, Except.error.injEq] at hwithin
          simpa only [List.append_nil, Except.error.injEq] using hwithin
        · simp only [mapVirtualAddress, mapAsked, List.append_nil]
          rw [← hwithin, hfind]
          simp
      · rename_i hindex
        simp [Pending, hindex]

/-- **When a mapping writes to a missing table**, no table being missing before. -/
theorem mapVirtualAddress_null_iff (hA : A.Answers) (hs : s.Complete)
    (hfuel : s.absent.ncard ≤ fuel) (hv : pml4GetIndex virt = topmost → InKernel virt) :
    mapVirtualAddress (fun u ↦ allocatePagesWith A fuel u 1) n s phys virt flags =
        .error .nullDereference ↔
      ∃ w ∈ mapAsked (fun u ↦ allocatePagesWith A fuel u 1) (fun u ↦ allocAsked A fuel u 1) n s phys
        virt flags, BadAnswer A w := by
  induction n generalizing s phys virt with
  | zero => simp [mapVirtualAddress, mapAsked]
  | succ n ih =>
    rw [mapVirtualAddress, mapAsked]
    split
    · rename_i hindex
      have hk := hv hindex
      have hnot : ¬ Pending s virt := fun h ↦ hs _ _ h.2.1 h.2.2
      have hwithin := findEntry_null_iff flags hk fun u hu ↦
        allocatePagesWith_null_iff hA u (lt_of_lt_of_le hu hfuel)
      rw [or_iff_right hnot] at hwithin
      rcases hfind : findEntry (fun u ↦ allocatePagesWith A fuel u 1) s virt flags with
        f | ⟨page, u⟩
      · rw [hfind, Except.error.injEq] at hwithin
        simpa only [List.append_nil, Except.error.injEq] using hwithin
      · have hnone : ¬ ∃ w ∈ findAsked (fun u ↦ allocAsked A fuel u 1) s virt flags,
            BadAnswer A w := by
          rw [← hwithin, hfind]
          simp
        have hround := round_writes phys (allocatePagesWith_writes A fuel) hk hfind
        simp only [List.mem_append, or_and_right, exists_or, hnone, false_or]
        refine ih (hround.complete hs) (hround.ncard_absent_le.trans hfuel) fun hindex' ↦ ?_
        rw [(inKernel_next hk hindex').1]
        exact (inKernel_next hk hindex').2
    · simp

/-- **When an allocation writes to a missing table**, no table being missing before. -/
theorem allocatePagesWith_null_iff_complete (hA : A.Answers) (hs : s.Complete)
    (hfuel : s.absent.ncard < fuel) (amount : ℕ) :
    allocatePagesWith A fuel s amount = .error .nullDereference ↔
      ∃ w ∈ allocAsked A fuel s amount, BadAnswer A w := by
  obtain ⟨fuel, rfl⟩ := Nat.exists_eq_succ_of_ne_zero (Nat.ne_zero_of_lt hfuel)
  rcases allocatePagesWith_cases hA fuel s amount with
    ⟨r, -, hcall, hasked⟩ | ⟨phys, virt, r, r', -, hvm, hcall, hasked⟩
  · rw [hcall, hasked]
    simp
  · rw [hcall, hasked, map_eq_error]
    exact mapVirtualAddress_null_iff hA (s := { s with rest := r' }) hs (Nat.le_of_lt_succ hfuel)
      (PageSource.inKernel hvm)

end Null

/-! ## Any sequence of calls -/

/-- A call of `AllocatePages` or `MapVirtualAddress` that maps pages of the kernel. -/
inductive Call
  | allocate (amount : ℕ)
  | map (phys virt amount flags : ℕ)

/-- The range of a mapping is the kernel's. -/
def Call.OnKernel : Call → Prop
  | .allocate _ => True
  | .map _ virt _ _ => InKernel virt

section Calls

variable {ρ : Type} (A : PageSource ρ) (fuel : ℕ)

/-- What a call leaves behind. -/
def Call.run (s : Paging ρ) : Call → Except Fault (Paging ρ)
  | .allocate amount => (allocatePagesWith A fuel s amount).map Prod.snd
  | .map phys virt amount flags =>
    mapVirtualAddress (fun u ↦ allocatePagesWith A fuel u 1) amount s phys virt flags

/-- The states in which it has a page supplied for a table. -/
def Call.asked (s : Paging ρ) : Call → List (Paging ρ)
  | .allocate amount => allocAsked A fuel s amount
  | .map phys virt amount flags => mapAsked (fun u ↦ allocatePagesWith A fuel u 1)
    (fun u ↦ allocAsked A fuel u 1) amount s phys virt flags

/-- One call after the other. -/
def runCalls : List Call → Paging ρ → Except Fault (Paging ρ)
  | [], s => .ok s
  | c :: calls, s =>
    match c.run A fuel s with
    | .error f => .error f
    | .ok s => runCalls calls s

/-- The states in which a page is supplied for a table. -/
def runAsked : List Call → Paging ρ → List (Paging ρ)
  | [], _ => []
  | c :: calls, s => c.asked A fuel s ++
    match c.run A fuel s with
    | .error _ => []
    | .ok s => runAsked calls s

variable {A fuel} {s s' : Paging ρ}

theorem runAsked_one (c : Call) : runAsked A fuel [c] s = c.asked A fuel s := by
  rw [runAsked]
  rcases c.run A fuel s with f | u <;> simp [runAsked]

/-- A call that returns has written something. -/
theorem Call.writes {c : Call} (hc : c.OnKernel) (h : c.run A fuel s = .ok s') :
    ∃ log, Writes s log s' := by
  cases c with
  | allocate amount =>
    rw [Call.run] at h
    rcases hcall : allocatePagesWith A fuel s amount with f | ⟨virt, u⟩
    · simp [hcall, Except.map] at h
    · rw [hcall, Except.map, Except.ok.injEq] at h
      obtain rfl : u = s' := h
      exact ⟨_, (allocatePagesWith_spec hcall).1⟩
  | map phys virt amount flags =>
    exact ⟨_, mapVirtualAddress_writes (allocatePagesWith_writes A fuel) (fun _ ↦ hc) h⟩

/-- One call: it comes to an end, and it writes to a missing table exactly when a page for a table
is put where a table is being made. -/
theorem Call.safe_iff (hA : A.Answers) {c : Call} (hc : c.OnKernel) (hs : s.Complete)
    (hfuel : s.absent.ncard < fuel) :
    c.run A fuel s ≠ .error .outOfFuel ∧
      (c.run A fuel s = .error .nullDereference ↔ ∃ w ∈ c.asked A fuel s, BadAnswer A w) := by
  cases c with
  | allocate amount =>
    rw [Call.run, Ne, map_eq_error, map_eq_error]
    exact ⟨allocatePagesWith_fuel hA s amount hfuel,
      allocatePagesWith_null_iff_complete hA hs hfuel amount⟩
  | map phys virt amount flags =>
    exact ⟨mapVirtualAddress_fuel (fun u hu ↦ allocatePagesWith_fuel hA u 1 hu)
      (Nat.le_of_lt hfuel) fun _ ↦ hc, mapVirtualAddress_null_iff hA hs (Nat.le_of_lt hfuel)
      fun _ ↦ hc⟩

/-- The same over a sequence of calls. -/
theorem runCalls_safe (hA : A.Answers) {calls : List Call} (hcalls : ∀ c ∈ calls, c.OnKernel)
    (hs : s.Complete) (hfuel : s.absent.ncard < fuel) :
    runCalls A fuel calls s ≠ .error .outOfFuel ∧
      (runCalls A fuel calls s = .error .nullDereference ↔
        ∃ w ∈ runAsked A fuel calls s, BadAnswer A w) := by
  induction calls generalizing s with
  | nil => simp [runCalls, runAsked]
  | cons c calls ih =>
    have hc := hcalls c List.mem_cons_self
    obtain ⟨hout, hnull⟩ := Call.safe_iff hA hc hs hfuel
    rw [runCalls, runAsked]
    rcases hrun : c.run A fuel s with f | u
    · rw [hrun] at hout hnull
      simpa only [List.append_nil] using ⟨hout, hnull⟩
    · obtain ⟨log, hwrites⟩ := c.writes hc hrun
      have hnone : ¬ ∃ w ∈ c.asked A fuel s, BadAnswer A w := by
        rw [← hnull, hrun]
        simp
      simp only [List.mem_append, or_and_right, exists_or, hnone, false_or]
      exact ih (fun c' hc' ↦ hcalls c' (List.mem_cons_of_mem c hc')) (hwrites.complete hs)
        (lt_of_le_of_lt hwrites.ncard_absent_le hfuel)

/-- No table is missing once `LoadVirtualMemory` has returned. -/
theorem complete_of_load {img : Image} {vmMarkPagesUsed : ρ → ℕ → ℕ → ρ}
    {leftover : ℕ → Fin 512 → Entry} {r : ρ} {top : TopEntries} {s₀ : Paging ρ}
    (h : loadVirtualMemory img (fun u ↦ allocatePagesWith A fuel u 1) vmMarkPagesUsed leftover r =
      .ok (top, s₀)) : s₀.Complete := by
  obtain ⟨-, hwrites, -⟩ := loadVirtualMemory_spec h
  refine hwrites.complete fun i j hpresent ↦ ?_
  rw [Image.tables_present, decide_eq_true_iff] at hpresent
  rw [Image.tables]
  simp [hpresent]

/-- **When no missing table is written to.**  From the state `LoadVirtualMemory` leaves, whatever is
called, the calls come to an end; and no missing table is written to if and only if, whenever a page
is supplied for a table, it does not lie where a table is being made. -/
theorem runCalls_safe_iff {img : Image} {vmMarkPagesUsed : ρ → ℕ → ℕ → ρ}
    {leftover : ℕ → Fin 512 → Entry} {r : ρ} {top : TopEntries} {s₀ : Paging ρ} {depth : ℕ}
    (hA : A.Answers) (hload : loadVirtualMemory img (fun u ↦ allocatePagesWith A depth u 1)
      vmMarkPagesUsed leftover r = .ok (top, s₀))
    {calls : List Call} (hcalls : ∀ c ∈ calls, c.OnKernel) (hfuel : 2 ^ 18 < fuel) :
    runCalls A fuel calls s₀ ≠ .error .outOfFuel ∧
      (runCalls A fuel calls s₀ ≠ .error .nullDereference ↔
        ∀ w ∈ runAsked A fuel calls s₀, ¬ BadAnswer A w) := by
  obtain ⟨hout, hnull⟩ := runCalls_safe hA hcalls (complete_of_load hload)
    (lt_of_le_of_lt (ncard_absent_le s₀) hfuel)
  refine ⟨hout, ?_⟩
  rw [Ne, hnull]
  simp only [not_exists, not_and]

end Calls

/-! ### Pages one after the other -/

/-- Frames one after the other, from 16 MiB on. -/
def countingPm (r order : ℕ) : Except Fault (Option ℕ × ℕ) :=
  .ok (if order ≤ pageMaxOrder then some (0x1000000 + archPageSize * r) else none, r)

/-- Addresses one after the other, from `base` on. -/
def countingVm (base r n : ℕ) : Except Fault (ℕ × ℕ) :=
  .ok (if base + archPageSize * (r + n) < 2 ^ 64 then (base + archPageSize * r, r + n) else (0, r))

theorem countingPm_order (r order phys r' : ℕ) (h : countingPm r order = .ok (some phys, r')) :
    order ≤ pageMaxOrder := by
  by_contra hlarge
  rw [countingPm, if_neg hlarge] at h
  simp at h

theorem countingVm_kernel {base : ℕ} (hbase : kernelVirtualBase ≤ base) (r n virt r' : ℕ)
    (h : countingVm base r n = .ok (virt, r')) :
    virt = 0 ∨ kernelVirtualBase ≤ virt ∧ virt < 2 ^ 64 := by
  rw [countingVm, Except.ok.injEq] at h
  split at h
  · rename_i hlt
    rw [Prod.mk.injEq] at h
    right
    dsimp only [archPageSize, kernelVirtualBase] at *
    omega
  · rw [Prod.mk.injEq] at h
    exact Or.inl h.1.symm

/-- Allocators that hand out page after page, `base` being the first. -/
def countingSource (base : ℕ) (hbase : kernelVirtualBase ≤ base) : PageSource ℕ where
  pm := countingPm
  vm := countingVm base
  charge r _ := r
  pm_order := countingPm_order
  vm_kernel := countingVm_kernel hbase

theorem countingSource_answers {base : ℕ} (hbase : kernelVirtualBase ≤ base) :
    (countingSource base hbase).Answers := by
  refine ⟨fun r order ↦ ⟨_, _, rfl⟩, fun r n ↦ ?_⟩
  rw [show (countingSource base hbase).vm = countingVm base from rfl, countingVm]
  split
  · exact ⟨_, _, rfl⟩
  · exact ⟨_, _, rfl⟩

/-- What they answer to a request for one page. -/
theorem countingSource_answer {base r : ℕ} (hbase : kernelVirtualBase ≤ base)
    (h : base + archPageSize * (r + 1) < 2 ^ 64) :
    (countingSource base hbase).pm r 0 = .ok (some (0x1000000 + archPageSize * r), r) ∧
    (countingSource base hbase).vm r 1 = .ok (base + archPageSize * r, r + 1) := by
  refine ⟨?_, ?_⟩
  · rw [show (countingSource base hbase).pm = countingPm from rfl, countingPm,
      if_pos (Nat.zero_le _)]
  · rw [show (countingSource base hbase).vm = countingVm base from rfl, countingVm, if_pos h]

theorem countingSource_first {base : ℕ} (hbase : kernelVirtualBase ≤ base)
    (h : base + archPageSize < 2 ^ 64) :
    (countingSource base hbase).pm 0 0 = .ok (some 0x1000000, 0) ∧
    (countingSource base hbase).vm 0 1 = .ok (base, 1) :=
  countingSource_answer (r := 0) hbase h

/-- The machine once `LoadVirtualMemory` has returned, with such allocators. -/
theorem loadVirtualMemory_counting {base : ℕ} (hbase : kernelVirtualBase ≤ base) : ∃ s₀ : Paging ℕ,
    loadVirtualMemory kernelImage (fun u ↦ allocatePagesWith (countingSource base hbase) 1 u 1)
      (fun r _ _ ↦ r) (fun _ _ ↦ ⟨false, false, false, 0⟩) 0 = .ok (kernelImage.top, s₀) ∧
    (∀ i j, s₀.pointer i j = if (i : ℕ) = 510
      then some (kernelVirtualBase + 0x200000 + archPageSize * j) else none) ∧
    (∀ i j, (s₀.dir i j).present = decide ((i : ℕ) = 510)) ∧ s₀.rest = 0 := by
  obtain ⟨s₀, hload, -, -, hpointer, hdir, hrest⟩ := loadVirtualMemory_eq kernelImage
    (countingSource base hbase) (fun r _ _ ↦ r) 1 (fun _ _ ↦ ⟨false, false, false, 0⟩) 0
  exact ⟨s₀, hload, fun i j ↦ by rw [hpointer]; rfl, fun i j ↦ by rw [hdir, Image.tables_present],
    hrest⟩

theorem firstBase : kernelVirtualBase ≤ kernelVirtualBase + 0x600000 := by decide

/-- The first page of the window, its table being put behind the kernel. -/
theorem runCalls_safe_iff_window : ∃ s₀ : Paging ℕ,
    loadVirtualMemory kernelImage (fun u ↦ allocatePagesWith
        (countingSource (kernelVirtualBase + 0x600000) firstBase) 1 u 1)
      (fun r _ _ ↦ r) (fun _ _ ↦ ⟨false, false, false, 0⟩) 0 = .ok (kernelImage.top, s₀) ∧
    runAsked (countingSource (kernelVirtualBase + 0x600000) firstBase) (2 ^ 18 + 1)
      [.map 0 kernelLow4gb 1 3] s₀ ≠ [] ∧
    runCalls (countingSource (kernelVirtualBase + 0x600000) firstBase) (2 ^ 18 + 1)
      [.map 0 kernelLow4gb 1 3] s₀ ≠ .error .nullDereference := by
  obtain ⟨s₀, hload, hpointer, hpresent, hrest⟩ := loadVirtualMemory_counting firstBase
  have hlow : InKernel kernelLow4gb := ⟨by decide, by decide⟩
  have hget : vmGetPage s₀ kernelLow4gb = none := by
    rw [vmGetPage_eq_none hlow, hpointer, if_neg (by decide)]
  have habsent : (s₀.dir (pdptGetIndex kernelLow4gb) (pdirGetIndex kernelLow4gb)).present =
      false := by
    rw [hpresent]
    decide
  have hnext : InKernel (kernelVirtualBase + 0x600000) := ⟨by decide, by decide⟩
  have htable : s₀.pointer (pdptGetIndex (kernelVirtualBase + 0x600000))
      (pdirGetIndex (kernelVirtualBase + 0x600000)) = some (kernelVirtualBase + 0x203000) := by
    rw [hpointer, if_pos (by decide)]
    decide
  obtain ⟨hframe, hvm⟩ := countingSource_first firstBase (by decide)
  have hpm : (countingSource (kernelVirtualBase + 0x600000) firstBase).pm
      (s₀.openDir kernelLow4gb 3).rest 0 = .ok (some 0x1000000, 0) := by
    rw [show (s₀.openDir kernelLow4gb 3).rest = 0 from hrest]
    exact hframe
  -- one page is supplied, and it has its table
  have hasked : runAsked (countingSource (kernelVirtualBase + 0x600000) firstBase) (2 ^ 18 + 1)
      [.map 0 kernelLow4gb 1 3] s₀ = [s₀.openDir kernelLow4gb 3] := by
    have hsome : vmGetPage { s₀.openDir kernelLow4gb 3 with rest := 1 }
        (kernelVirtualBase + 0x600000) = some (kernelVirtualBase + 0x203000, 0) :=
      (vmGetPage_eq_some hnext).mpr ⟨htable, by decide⟩
    rw [runAsked_one, Call.asked, mapAsked_one hlow.pml4GetIndex, findAsked_of_none hget, habsent]
    simp only [Bool.not_false, if_true]
    rw [allocAsked_one _ hpm hvm hnext.pml4GetIndex, findAsked_of_some hsome]
  have hcalls : ∀ c ∈ [Call.map 0 kernelLow4gb 1 3], c.OnKernel := by
    intro c hc
    rw [List.mem_singleton.mp hc]
    exact hlow
  refine ⟨s₀, hload, by rw [hasked]; simp, (runCalls_safe_iff (countingSource_answers firstBase)
    hload hcalls (Nat.lt_succ_self _)).2.mpr ?_⟩
  rw [hasked]
  intro w hw
  rw [List.mem_singleton.mp hw]
  rintro ⟨virt, hpage, -, -, hnone⟩
  rw [PageSource.pageAt_eq hpm hvm, Option.some.injEq] at hpage
  rw [← hpage] at hnone
  exact absurd (hnone.symm.trans htable) (by simp)

theorem secondBase : kernelVirtualBase ≤ kernelVirtualBase + 2 ^ 30 := by decide

/-- **A missing table is written to**: once the first GiB is used up, the first page of the second
is handed out, the second page for its table, and that page lies in the same region. -/
theorem runCalls_null : ∃ s₀ : Paging ℕ,
    loadVirtualMemory kernelImage (fun u ↦ allocatePagesWith
        (countingSource (kernelVirtualBase + 2 ^ 30) secondBase) 1 u 1)
      (fun r _ _ ↦ r) (fun _ _ ↦ ⟨false, false, false, 0⟩) 0 = .ok (kernelImage.top, s₀) ∧
    runCalls (countingSource (kernelVirtualBase + 2 ^ 30) secondBase) (2 ^ 18 + 1)
      [.allocate 1] s₀ = .error .nullDereference := by
  obtain ⟨s₀, hload, hpointer, hpresent, hrest⟩ := loadVirtualMemory_counting secondBase
  have hfirst : InKernel (kernelVirtualBase + 2 ^ 30) := ⟨by decide, by decide⟩
  have hget : vmGetPage { s₀ with rest := 1 } (kernelVirtualBase + 2 ^ 30) = none := by
    rw [vmGetPage_eq_none hfirst, hpointer, if_neg (by decide)]
  have habsent : (s₀.dir (pdptGetIndex (kernelVirtualBase + 2 ^ 30))
      (pdirGetIndex (kernelVirtualBase + 2 ^ 30))).present = false := by
    rw [hpresent]
    decide
  obtain ⟨hframe, hvm⟩ := countingSource_first secondBase (by decide)
  obtain ⟨hframe', hvm'⟩ := countingSource_answer (r := 1) secondBase (by decide)
  have hpm : (countingSource (kernelVirtualBase + 2 ^ 30) secondBase).pm s₀.rest 0 =
      .ok (some 0x1000000, 0) := by
    rw [hrest]
    exact hframe
  have hbad : BadAnswer (countingSource (kernelVirtualBase + 2 ^ 30) secondBase)
      (Paging.openDir { s₀ with rest := 1 } (kernelVirtualBase + 2 ^ 30) kernelFlags) := by
    refine ⟨_, PageSource.pageAt_eq hframe' hvm', by decide, ?_, ?_⟩
    · rw [Paging.openDir, setDir_dir, if_pos (by decide)]
    · rw [show (Paging.openDir { s₀ with rest := 1 } (kernelVirtualBase + 2 ^ 30)
        kernelFlags).pointer = s₀.pointer from rfl, hpointer, if_neg (by decide)]
  have hcall : allocatePagesWith (countingSource (kernelVirtualBase + 2 ^ 30) secondBase)
      (2 ^ 18 + 1) s₀ 1 = .error .nullDereference := by
    refine (allocatePagesWith_null_iff_complete (countingSource_answers secondBase)
      (complete_of_load hload) (Nat.lt_succ_of_le (ncard_absent_le s₀)) 1).mpr ⟨_, ?_, hbad⟩
    rw [allocAsked_one _ hpm hvm hfirst.pml4GetIndex, findAsked_of_none hget, habsent]
    exact List.mem_cons_self
  refine ⟨s₀, hload, ?_⟩
  rw [runCalls, Call.run, hcall]
  rfl

end CubikOS

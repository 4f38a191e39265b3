import CubikOS.Arch.Paging

/-!
# What a call of MapVirtualAddress writes

A call of `MapVirtualAddress` writes an entry for each page of its range.  For a page whose table
is missing it first has a table made, and the page that the table goes to is mapped by a call of
`MapVirtualAddress` within.  The log of a call lists the pages it has mapped, its own and those of
the calls within, in the order in which their entries were written (`mapLog`).

`Writes s log s'` says that writing the entries of the log, and making the tables that are missing
on the way, leads from `s` to `s'`.  A call that returns is such a thing if the allocations within
are (`mapVirtualAddress_writes`), and everything else is read off the relation:

* `Writes.region` is what can happen to a directory entry and its table pointer: nothing, or a
  table is made, with the flags of the first page that is mapped in the region.
* `Writes.table_eq` is what the tables hold afterwards, several directory entries sharing one or
  not: the last entry written there, or what was there.
* `Writes.table` is that among distinct tables: the last entry written for a page, or what was
  there.
-/

set_option autoImplicit false

namespace CubikOS

/-! ## The log -/

/-- One page that was mapped. -/
structure Mapping where
  /-- An address of the page. -/
  virt : ℕ
  /-- The address of the frame. -/
  phys : ℕ
  /-- The flags asked for. -/
  flags : ℕ
deriving DecidableEq

/-- The number of the page. -/
def Mapping.page (x : Mapping) : ℕ := x.virt / archPageSize

/-- The entry that was written for it. -/
def Mapping.entry (x : Mapping) : Entry := mapEntry x.phys x.flags

/-- The page belongs to the directory entry. -/
def Mapping.InRegion (x : Mapping) (i j : Fin 512) : Prop :=
  pdptGetIndex x.virt = i ∧ pdirGetIndex x.virt = j

instance (x : Mapping) (i j : Fin 512) : Decidable (x.InRegion i j) :=
  inferInstanceAs (Decidable (_ ∧ _))

namespace Paging

variable {ρ : Type}

/-- The directory entry for `virt` is put in use. -/
def openDir (s : Paging ρ) (virt flags : ℕ) : Paging ρ :=
  s.setDir (pdptGetIndex virt) (pdirGetIndex virt)
    { s.dir (pdptGetIndex virt) (pdirGetIndex virt) with
      present := true
      writable := flags &&& pageFlagWritable ≠ 0
      usr := flags &&& pageFlagUser ≠ 0 }

/-- The directory entry for `virt` is given the table at `t`. -/
def installTable (s : Paging ρ) (virt t : ℕ) : Paging ρ :=
  (s.setDir (pdptGetIndex virt) (pdirGetIndex virt)
    { s.dir (pdptGetIndex virt) (pdirGetIndex virt) with
      addr := convertVirtToPhys s t / archPageSize % 2 ^ 36 }).setPointer
    (pdptGetIndex virt) (pdirGetIndex virt) (some t)

end Paging

section Log

variable {ρ : Type} (allocatePages : Paging ρ → Except Fault (ℕ × Paging ρ))
  (allocLog : Paging ρ → List Mapping)

/-- The pages mapped while the entry for `virt` is found. -/
def findLog (s : Paging ρ) (virt flags : ℕ) : List Mapping :=
  match vmGetPage s virt with
  | some _ => []
  | none =>
    if !(s.dir (pdptGetIndex virt) (pdirGetIndex virt)).present then
      allocLog (s.openDir virt flags)
    else []

/-- The pages `MapVirtualAddress(map, phys, virt, amount, flags)` maps.  `allocLog` lists those
that `AllocatePages(kernel, 1)` maps. -/
def mapLog : ℕ → Paging ρ → ℕ → ℕ → ℕ → List Mapping
  | 0, _, _, _, _ => []
  | amount + 1, s, phys, virt, flags =>
    findLog allocLog s virt flags ++
      match findEntry allocatePages s virt flags with
      | .error _ => []
      | .ok (page, s) =>
        ⟨virt, phys, flags⟩ :: mapLog amount (s.setEntry page (mapEntry phys flags))
          ((phys + archPageSize) % 2 ^ 64) ((virt + archPageSize) % 2 ^ 64) flags

end Log

/-- The last page of the log that has number `q`. -/
def lastOn (q : ℕ) (log : List Mapping) : Option Mapping :=
  log.reverse.find? fun x ↦ x.page = q

/-- Where `P` has the tables, the entry for the page is entry `k` of the table at `T`. -/
def Mapping.Into (x : Mapping) (P : Fin 512 → Fin 512 → Option ℕ) (T : ℕ) (k : Fin 512) : Prop :=
  P (pdptGetIndex x.virt) (pdirGetIndex x.virt) = some T ∧ pageGetIndex x.virt = k

instance (x : Mapping) (P : Fin 512 → Fin 512 → Option ℕ) (T : ℕ) (k : Fin 512) :
    Decidable (x.Into P T k) :=
  inferInstanceAs (Decidable (_ ∧ _))

/-- The last page of the log whose entry is entry `k` of the table at `T`. -/
def lastInto (P : Fin 512 → Fin 512 → Option ℕ) (T : ℕ) (k : Fin 512) (log : List Mapping) :
    Option Mapping :=
  log.reverse.find? fun x ↦ x.Into P T k

/-- The first page of the log in the region of a directory entry. -/
def firstIn (i j : Fin 512) (log : List Mapping) : Option Mapping :=
  log.find? fun x ↦ x.InRegion i j

theorem lastOn_append (q : ℕ) (log log' : List Mapping) :
    lastOn q (log ++ log') = (lastOn q log').or (lastOn q log) := by
  rw [lastOn, List.reverse_append, List.find?_append, lastOn, lastOn]

theorem lastOn_cons (q : ℕ) (x : Mapping) (log : List Mapping) :
    lastOn q (x :: log) = (lastOn q log).or (if x.page = q then some x else none) := by
  rw [lastOn, List.reverse_cons, List.find?_append, lastOn]
  by_cases h : x.page = q <;> simp [h]

theorem lastOn_eq_none {q : ℕ} {log : List Mapping} :
    lastOn q log = none ↔ ∀ x ∈ log, x.page ≠ q := by
  rw [lastOn, List.find?_eq_none]
  simp

section LastInto

variable {P : Fin 512 → Fin 512 → Option ℕ} {T : ℕ} {k : Fin 512} {log : List Mapping}

theorem lastInto_append (log log' : List Mapping) :
    lastInto P T k (log ++ log') = (lastInto P T k log').or (lastInto P T k log) := by
  rw [lastInto, List.reverse_append, List.find?_append, lastInto, lastInto]

theorem lastInto_cons (x : Mapping) (log : List Mapping) :
    lastInto P T k (x :: log) =
      (lastInto P T k log).or (if x.Into P T k then some x else none) := by
  rw [lastInto, List.reverse_cons, List.find?_append, lastInto]
  by_cases h : x.Into P T k <;> simp [h]

/-- Where no two pages of the log share an entry that are not the same, the last one written there
is the last one of the page. -/
theorem lastInto_eq_lastOn {q : ℕ} (h : ∀ x ∈ log, x.Into P T k ↔ x.page = q) :
    lastInto P T k log = lastOn q log := by
  rw [lastInto, lastOn]
  exact List.find?_congr fun x hx ↦ decide_eq_decide.mpr (h x (List.mem_reverse.mp hx))

end LastInto

theorem firstIn_append (i j : Fin 512) (log log' : List Mapping) :
    firstIn i j (log ++ log') = (firstIn i j log).or (firstIn i j log') :=
  List.find?_append

theorem firstIn_eq_none {i j : Fin 512} {log : List Mapping} :
    firstIn i j log = none ↔ ∀ x ∈ log, ¬ x.InRegion i j := by
  rw [firstIn, List.find?_eq_none]
  simp

/-! ## What leads from one state to another -/

/-- The entries of the log are written, one after the other, and the tables that are missing on the
way are made.  What is not a page table may change at any time. -/
inductive Writes {ρ : Type} : Paging ρ → List Mapping → Paging ρ → Prop
  | nil {s : Paging ρ} : Writes s [] s
  | rest {s s' : Paging ρ} {log : List Mapping} (r : ρ) :
    Writes { s with rest := r } log s' → Writes s log s'
  | old {s s' : Paging ρ} {log : List Mapping} {x : Mapping} {page : EntryRef} :
    InKernel x.virt → vmGetPage s x.virt = some page →
    Writes (s.setEntry page x.entry) log s' → Writes s (x :: log) s'
  | new {s u s' : Paging ρ} {log log' : List Mapping} {x : Mapping} {t : ℕ} :
    InKernel x.virt → vmGetPage s x.virt = none →
    (s.dir (pdptGetIndex x.virt) (pdirGetIndex x.virt)).present = false →
    Writes (s.openDir x.virt x.flags) log u → t ≠ 0 →
    Writes ((u.installTable x.virt t).setEntry (t, pageGetIndex x.virt) x.entry) log' s' →
    Writes s (log ++ x :: log') s'

section Writes

variable {ρ : Type} {s u s' : Paging ρ} {log log' : List Mapping}

theorem Writes.trans (h : Writes s log u) (h' : Writes u log' s') : Writes s (log ++ log') s' := by
  induction h with
  | nil => exact h'
  | rest r _ ih => exact Writes.rest r (ih h')
  | old hx hpage _ ih => exact Writes.old hx hpage (ih h')
  | new hx hget habsent hin ht _ _ ih =>
    rw [List.append_assoc]
    exact Writes.new hx hget habsent hin ht (ih h')

theorem Writes.setRest (h : Writes s log s') (r : ρ) : Writes s log { s' with rest := r } := by
  have := h.trans (Writes.rest r Writes.nil)
  rwa [List.append_nil] at this

theorem vmGetPage_eq_none {v : ℕ} (hv : InKernel v) :
    vmGetPage s v = none ↔ s.pointer (pdptGetIndex v) (pdirGetIndex v) = none := by
  rw [vmGetPage, if_pos hv.pml4GetIndex]
  split
  · rename_i t ht
    simp [ht]
  · rename_i ht
    simp [ht]

theorem openDir_dir (v flags : ℕ) (i j : Fin 512)
    (h : ¬ (pdptGetIndex v = i ∧ pdirGetIndex v = j)) :
    (s.openDir v flags).dir i j = s.dir i j := by
  rw [Paging.openDir, setDir_dir, if_neg fun h' ↦ h ⟨h'.1.symm, h'.2.symm⟩]

theorem installTable_of_ne (v t : ℕ) (i j : Fin 512)
    (h : ¬ (pdptGetIndex v = i ∧ pdirGetIndex v = j)) :
    (s.installTable v t).dir i j = s.dir i j ∧
      (s.installTable v t).pointer i j = s.pointer i j := by
  have h' : ¬ (i = pdptGetIndex v ∧ j = pdirGetIndex v) := fun h' ↦ h ⟨h'.1.symm, h'.2.symm⟩
  refine ⟨?_, ?_⟩
  · rw [Paging.installTable, Paging.setPointer]
    simp only [setDir_dir, if_neg h']
  · rw [Paging.installTable, setPointer_pointer, if_neg h', Paging.setDir]

theorem installTable_self (v t : ℕ) :
    (s.installTable v t).pointer (pdptGetIndex v) (pdirGetIndex v) = some t := by
  rw [Paging.installTable, setPointer_pointer, if_pos ⟨rfl, rfl⟩]

/-- What can happen to a directory entry and its table pointer.  They are kept, and if there is no
table then no page of the region was mapped; or a table is made, with the flags of the first page
mapped in the region. -/
inductive RegionChange (s : Paging ρ) (log : List Mapping) (s' : Paging ρ) (i j : Fin 512) : Prop
  | kept (hpointer : s'.pointer i j = s.pointer i j) (hdir : s'.dir i j = s.dir i j)
    (hlog : s.pointer i j = none → firstIn i j log = none)
  | made (hnone : s.pointer i j = none) (habsent : (s.dir i j).present = false) (t : ℕ)
    (hpointer : s'.pointer i j = some t) (x : Mapping) (hfirst : firstIn i j log = some x)
    (hpresent : (s'.dir i j).present = true)
    (hwritable : (s'.dir i j).writable = x.entry.writable)
    (husr : (s'.dir i j).usr = x.entry.usr)

theorem RegionChange.trans {i j : Fin 512} (h : RegionChange s log u i j)
    (h' : RegionChange u log' s' i j) : RegionChange s (log ++ log') s' i j := by
  cases h with
  | kept hpointer hdir hlog =>
    cases h' with
    | kept hpointer' hdir' hlog' =>
      refine .kept (hpointer'.trans hpointer) (hdir'.trans hdir) fun hnone ↦ ?_
      rw [firstIn_append, hlog hnone, hlog' (hpointer.trans hnone), Option.or_none]
    | made hnone habsent t hpointer' x hfirst hpresent hwritable husr =>
      have hnone' := hpointer.symm.trans hnone
      refine .made hnone' (hdir ▸ habsent) t hpointer' x ?_ hpresent hwritable husr
      rw [firstIn_append, hlog hnone', Option.none_or, hfirst]
  | made hnone habsent t hpointer x hfirst hpresent hwritable husr =>
    cases h' with
    | kept hpointer' hdir' _ =>
      refine .made hnone habsent t (hpointer'.trans hpointer) x ?_ (hdir' ▸ hpresent)
        (hdir' ▸ hwritable) (hdir' ▸ husr)
      rw [firstIn_append, hfirst, Option.some_or]
    | made hnone' =>
      rw [hpointer] at hnone'
      simp at hnone'

/-- The region of the page that a table is made for. -/
theorem regionChange_self {x : Mapping} {t : ℕ}
    (hnone : s.pointer (pdptGetIndex x.virt) (pdirGetIndex x.virt) = none)
    (habsent : (s.dir (pdptGetIndex x.virt) (pdirGetIndex x.virt)).present = false)
    (hin : RegionChange (s.openDir x.virt x.flags) log u (pdptGetIndex x.virt)
      (pdirGetIndex x.virt))
    (hout : RegionChange ((u.installTable x.virt t).setEntry (t, pageGetIndex x.virt) x.entry) log'
      s' (pdptGetIndex x.virt) (pdirGetIndex x.virt)) :
    RegionChange s (log ++ x :: log') s' (pdptGetIndex x.virt) (pdirGetIndex x.virt) := by
  -- within, the directory entry is in use and has no table, so nothing can be done with it
  cases hin with
  | made _ hfalse =>
    rw [Paging.openDir, setDir_dir, if_pos ⟨rfl, rfl⟩] at hfalse
    simp at hfalse
  | kept _ hdir hlog =>
    cases hout with
    | made hnone' =>
      have hsome := installTable_self (s := u) x.virt t
      exact absurd (hsome.symm.trans hnone') (by simp)
    | kept hpointer' hdir' _ =>
      have hfinal : s'.dir (pdptGetIndex x.virt) (pdirGetIndex x.virt) =
          { u.dir (pdptGetIndex x.virt) (pdirGetIndex x.virt) with
            addr := convertVirtToPhys u t / archPageSize % 2 ^ 36 } := by
        rw [hdir']
        simp only [Paging.setEntry, Paging.installTable, Paging.setPointer, setDir_dir, and_self,
          if_true]
      have hopened : u.dir (pdptGetIndex x.virt) (pdirGetIndex x.virt) =
          { s.dir (pdptGetIndex x.virt) (pdirGetIndex x.virt) with
            present := true, writable := x.entry.writable, usr := x.entry.usr } := by
        rw [hdir, Paging.openDir, setDir_dir, if_pos ⟨rfl, rfl⟩]
        rfl
      refine .made hnone habsent t (hpointer'.trans (installTable_self x.virt t)) x ?_ ?_ ?_ ?_
      · rw [firstIn_append, hlog hnone, Option.none_or, firstIn, List.find?_cons_of_pos]
        exact decide_eq_true ⟨rfl, rfl⟩
      · rw [hfinal, hopened]
      · rw [hfinal, hopened]
      · rw [hfinal, hopened]

/-- **What happens to a directory entry and its table pointer** while a log is written. -/
theorem Writes.region (h : Writes s log s') (i j : Fin 512) : RegionChange s log s' i j := by
  induction h with
  | nil => exact .kept rfl rfl fun _ ↦ rfl
  | @rest s s' log r _ ih =>
    have hrest : RegionChange s [] { s with rest := r } i j := .kept rfl rfl fun _ ↦ rfl
    exact hrest.trans ih
  | @old s s' log x page hx hpage _ ih =>
    have hfirst : RegionChange s [x] (s.setEntry page x.entry) i j := by
      refine .kept rfl rfl fun hnone ↦ firstIn_eq_none.mpr ?_
      rintro y hy ⟨rfl, rfl⟩
      rw [List.mem_singleton.mp hy, ← vmGetPage_eq_none hx, hpage] at hnone
      simp at hnone
    exact hfirst.trans ih
  | @new s u s' log log' x t hx hget habsent _ ht _ ih ih' =>
    by_cases hreg : x.InRegion i j
    · obtain ⟨rfl, rfl⟩ := hreg
      exact regionChange_self ((vmGetPage_eq_none hx).mp hget) habsent ih ih'
    · obtain ⟨hdir, hpointer⟩ := installTable_of_ne (s := u) x.virt t i j hreg
      have hopen : RegionChange s [] (s.openDir x.virt x.flags) i j :=
        .kept rfl (openDir_dir _ _ i j hreg) fun _ ↦ rfl
      have hinstall : RegionChange u [x]
          ((u.installTable x.virt t).setEntry (t, pageGetIndex x.virt) x.entry) i j := by
        refine .kept hpointer hdir fun _ ↦ firstIn_eq_none.mpr fun y hy ↦ ?_
        rw [List.mem_singleton.mp hy]
        exact hreg
      exact hopen.trans (ih.trans (hinstall.trans ih'))

/-- A table that is there stays. -/
theorem Writes.pointer {i j : Fin 512} {t : ℕ} (h : Writes s log s') (ht : s.pointer i j = some t) :
    s'.pointer i j = some t := by
  cases h.region i j with
  | kept hpointer => exact hpointer.trans ht
  | made hnone => simp [ht] at hnone

/-- No table is missing afterwards, if none was before. -/
theorem Writes.complete (h : Writes s log s') (hs : s.Complete) : s'.Complete := by
  intro i j hpresent
  cases h.region i j with
  | kept hpointer hdir =>
    rw [hpointer]
    exact hs i j (hdir ▸ hpresent)
  | made _ _ t hpointer =>
    rw [hpointer]
    simp

/-- While a table is made, its directory entry has none. -/
theorem Writes.openDir_pointer {v flags : ℕ} (h : Writes (s.openDir v flags) log u)
    (hnone : s.pointer (pdptGetIndex v) (pdirGetIndex v) = none) :
    u.pointer (pdptGetIndex v) (pdirGetIndex v) = none := by
  cases h.region (pdptGetIndex v) (pdirGetIndex v) with
  | kept hpointer => exact hpointer.trans hnone
  | made _ hfalse =>
    rw [Paging.openDir, setDir_dir, if_pos ⟨rfl, rfl⟩] at hfalse
    simp at hfalse

/-- Tables that were there before a table is made are there afterwards. -/
theorem Writes.installTable_pointer {v flags t t' : ℕ} {i j : Fin 512}
    (h : Writes (s.openDir v flags) log u)
    (hnone : s.pointer (pdptGetIndex v) (pdirGetIndex v) = none) (ht : u.pointer i j = some t') :
    (u.installTable v t).pointer i j = some t' := by
  by_cases hreg : pdptGetIndex v = i ∧ pdirGetIndex v = j
  · obtain ⟨rfl, rfl⟩ := hreg
    rw [h.openDir_pointer hnone] at ht
    simp at ht
  · rw [(installTable_of_ne v t i j hreg).2, ht]

/-- **What the tables hold afterwards**: the last entry written there, or what was there. -/
theorem Writes.table_eq {P : Fin 512 → Fin 512 → Option ℕ} (h : Writes s log s')
    (hsub : ∀ i j t, s'.pointer i j = some t → P i j = some t) (T : ℕ) (k : Fin 512) :
    s'.table T k = ((lastInto P T k log).map Mapping.entry).getD (s.table T k) := by
  -- what one page adds to the log, and its entry to the table
  have hone : ∀ (x : Mapping) (u : Paging ρ) (T' : ℕ),
      P (pdptGetIndex x.virt) (pdirGetIndex x.virt) = some T' →
      (u.setEntry (T', pageGetIndex x.virt) x.entry).table T k =
        (((if x.Into P T k then some x else none).map Mapping.entry).getD (u.table T k)) := by
    intro x u T' hT'
    have hiff : (T = T' ∧ k = pageGetIndex x.virt) ↔ x.Into P T k := by
      rw [Mapping.Into, hT', Option.some.injEq, eq_comm, @eq_comm _ k]
    rw [setEntry_table]
    by_cases hinto : x.Into P T k
    · rw [if_pos (hiff.mpr hinto), if_pos hinto]
      rfl
    · rw [if_neg fun hc ↦ hinto (hiff.mp hc), if_neg hinto]
      rfl
  induction h with
  | nil => rfl
  | rest r _ ih => exact ih hsub
  | @old s s' log x page hx hpage hrest ih =>
    obtain ⟨hpointer, hindex⟩ := (vmGetPage_eq_some hx).mp hpage
    obtain ⟨T', i⟩ := page
    dsimp only at hpointer hindex
    subst hindex
    rw [ih hsub, hone x s T' (hsub _ _ _ (hrest.pointer hpointer)), lastInto_cons,
      Option.map_or, Option.getD_or]
  | @new s u s' log log' x t hx hget habsent hin ht hout ih ih' =>
    have hnone := (vmGetPage_eq_none hx).mp hget
    have hself := hout.pointer (installTable_self x.virt t)
    have hu := ih fun i j t' ht' ↦ hsub i j t' (hout.pointer (hin.installTable_pointer hnone ht'))
    rw [ih' hsub, hone x _ t (hsub _ _ _ hself), lastInto_append, lastInto_cons, Option.map_or,
      Option.getD_or, Option.map_or, Option.getD_or]
    congr 2

/-- The pages of the log are the kernel's. -/
theorem Writes.inKernel (h : Writes s log s') : ∀ x ∈ log, InKernel x.virt := by
  induction h with
  | nil => exact fun x hx ↦ absurd hx List.not_mem_nil
  | rest r _ ih => exact ih
  | old hx _ _ ih => exact List.forall_mem_cons.mpr ⟨hx, ih⟩
  | new hx _ _ _ _ _ ih ih' =>
    exact List.forall_mem_append.mpr ⟨ih, List.forall_mem_cons.mpr ⟨hx, ih'⟩⟩

/-- Among distinct tables, the entry of one page is not that of another. -/
theorem Mapping.into_iff {x : Mapping} {q T : ℕ} (hd : s.DistinctTables) (hx : InKernel x.virt)
    (hq : InKernel q) (hT : s.pointer (pdptGetIndex q) (pdirGetIndex q) = some T) :
    x.Into s.pointer T (pageGetIndex q) ↔ x.page = q / archPageSize := by
  constructor
  · rintro ⟨hT', hindex⟩
    obtain ⟨h1, h2⟩ := hd _ _ _ _ _ hT' hT
    exact index_inj hx hq h1 h2 hindex
  · intro hpage
    obtain ⟨h1, h2, h3⟩ := index_congr hpage
    rw [Mapping.Into, h1, h2, h3]
    exact ⟨hT, rfl⟩

/-- **What the tables hold afterwards**, among distinct ones: the entry of a page is the last one
written for it, or what was there. -/
theorem Writes.table (h : Writes s log s') (hd : s'.DistinctTables) {q T : ℕ} (hq : InKernel q)
    (hT : s'.pointer (pdptGetIndex q) (pdirGetIndex q) = some T) :
    s'.table T (pageGetIndex q) =
      ((lastOn (q / archPageSize) log).map Mapping.entry).getD (s.table T (pageGetIndex q)) := by
  rw [h.table_eq (fun _ _ _ h ↦ h), lastInto_eq_lastOn fun x hx ↦
    Mapping.into_iff hd (h.inKernel x hx) hq hT]

theorem mem_of_lastOn {q : ℕ} {x : Mapping} (h : lastOn q log = some x) :
    x ∈ log ∧ x.page = q := by
  rw [lastOn] at h
  have hpage := List.find?_some h
  rw [decide_eq_true_iff] at hpage
  exact ⟨List.mem_reverse.mp (List.mem_of_find?_eq_some h), hpage⟩

/-- A region in which a page was mapped has a table. -/
theorem Writes.pointer_of_mem {x : Mapping} {i j : Fin 512} (h : Writes s log s') (hx : x ∈ log)
    (hreg : x.InRegion i j) : ∃ t, s'.pointer i j = some t := by
  rw [← Option.ne_none_iff_exists']
  intro hnone
  cases h.region i j with
  | kept hpointer _ hlog =>
    exact firstIn_eq_none.mp (hlog (hpointer.symm.trans hnone)) x hx hreg
  | made _ _ t hpointer => simp [hpointer] at hnone

/-- **The entry of a page that was mapped** is the last one written for it. -/
theorem Writes.entry_of_last {q : ℕ} {x : Mapping} (h : Writes s log s') (hd : s'.DistinctTables)
    (hq : InKernel q) (hlast : lastOn (q / archPageSize) log = some x) :
    s'.entry q = some x.entry := by
  obtain ⟨hx, hpage⟩ := mem_of_lastOn hlast
  obtain ⟨h1, h2, -⟩ := index_congr hpage
  obtain ⟨t, ht⟩ := h.pointer_of_mem hx ⟨h1, h2⟩
  have hget : vmGetPage s' q = some (t, pageGetIndex q) := (vmGetPage_eq_some hq).mpr ⟨ht, rfl⟩
  rw [Paging.entry, hget, Option.map_some, h.table hd hq ht, hlast]
  rfl

/-- What holds of the entries of a table and of the entries that are written holds afterwards. -/
theorem Writes.entries {P : Entry → Prop} (h : Writes s log s') (hlog : ∀ x ∈ log, P x.entry)
    {t : ℕ} {k : Fin 512} (ht : P (s.table t k)) : P (s'.table t k) := by
  have hone : ∀ (u : Paging ρ) (page : EntryRef) (e : Entry), P e → P (u.table t k) →
      P ((u.setEntry page e).table t k) := by
    intro u page e he hu
    rw [setEntry_table]
    split
    · exact he
    · exact hu
  induction h with
  | nil => exact ht
  | rest r _ ih => exact ih hlog ht
  | @old s s' log x page _ _ _ ih =>
    exact ih (fun y hy ↦ hlog y (List.mem_cons_of_mem x hy))
      (hone s page x.entry (hlog x List.mem_cons_self) ht)
  | @new s u s' log log' x t' _ _ _ _ _ _ ih ih' =>
    have hin := ih (fun y hy ↦ hlog y (List.mem_append_left _ hy)) ht
    refine ih' (fun y hy ↦ hlog y ?_) (hone (u.installTable x.virt t') _ x.entry (hlog x ?_) hin)
    · exact List.mem_append_right _ (List.mem_cons_of_mem x hy)
    · exact List.mem_append_right _ List.mem_cons_self

/-- What holds of all entries that are written holds of one afterwards. -/
theorem Writes.exists_entry {P : Entry → Prop} (h : Writes s log s') (hlog : ∀ x ∈ log, P x.entry)
    (hnil : log ≠ []) : ∃ i j t k, s'.pointer i j = some t ∧ P (s'.table t k) := by
  induction h with
  | nil => exact absurd rfl hnil
  | rest r _ ih => exact ih hlog hnil
  | @old s s' log x page hx hpage hrest _ =>
    obtain ⟨hpointer, hindex⟩ := (vmGetPage_eq_some hx).mp hpage
    refine ⟨_, _, page.1, page.2, hrest.pointer hpointer, ?_⟩
    refine hrest.entries (fun y hy ↦ hlog y (List.mem_cons_of_mem x hy)) ?_
    rw [setEntry_table, if_pos ⟨rfl, rfl⟩]
    exact hlog x List.mem_cons_self
  | @new s u s' log log' x t _ _ _ _ _ hrest _ _ =>
    refine ⟨_, _, t, pageGetIndex x.virt, hrest.pointer (installTable_self x.virt t), ?_⟩
    refine hrest.entries (fun y hy ↦ hlog y ?_) ?_
    · exact List.mem_append_right _ (List.mem_cons_of_mem x hy)
    · rw [setEntry_table, if_pos ⟨rfl, rfl⟩]
      exact hlog x (List.mem_append_right _ List.mem_cons_self)

end Writes

/-! ## What a call writes -/

section Calls

variable {ρ : Type} {allocatePages : Paging ρ → Except Fault (ℕ × Paging ρ)}
  {allocLog : Paging ρ → List Mapping} {s s' : Paging ρ} {virt flags : ℕ}

theorem findEntry_of_absent {t : ℕ} {u : Paging ρ} (hget : vmGetPage s virt = none)
    (habsent : (s.dir (pdptGetIndex virt) (pdirGetIndex virt)).present = false)
    (halloc : allocatePages (s.openDir virt flags) = .ok (t, u)) (ht : t ≠ 0) :
    findEntry allocatePages s virt flags =
      .ok ((t, pageGetIndex virt), u.installTable virt t) := by
  rw [Paging.openDir] at halloc
  simp only [findEntry, hget, habsent, Bool.not_false, if_true, halloc, asPointer, ht, if_false,
    Paging.installTable]

theorem findEntry_of_absent_error {f : Fault} (hget : vmGetPage s virt = none)
    (habsent : (s.dir (pdptGetIndex virt) (pdirGetIndex virt)).present = false)
    (halloc : allocatePages (s.openDir virt flags) = .error f) :
    findEntry allocatePages s virt flags = .error f := by
  rw [Paging.openDir] at halloc
  simp only [findEntry, hget, habsent, Bool.not_false, if_true, halloc]

theorem findEntry_of_absent_null {u : Paging ρ} (hget : vmGetPage s virt = none)
    (habsent : (s.dir (pdptGetIndex virt) (pdirGetIndex virt)).present = false)
    (halloc : allocatePages (s.openDir virt flags) = .ok (0, u)) :
    findEntry allocatePages s virt flags = .error .nullDereference := by
  rw [Paging.openDir] at halloc
  simp only [findEntry, hget, habsent, Bool.not_false, if_true, halloc, asPointer]

theorem findEntry_of_present (hget : vmGetPage s virt = none)
    (hpresent : (s.dir (pdptGetIndex virt) (pdirGetIndex virt)).present = true)
    (hnone : s.pointer (pdptGetIndex virt) (pdirGetIndex virt) = none) :
    findEntry allocatePages s virt flags = .error .nullDereference := by
  simp [findEntry, hget, hpresent, hnone]

/-- **How the entry for an address is found**: it is there, or a table is made for it. -/
theorem findEntry_cases {page : EntryRef} (hv : InKernel virt)
    (h : findEntry allocatePages s virt flags = .ok (page, s')) :
    vmGetPage s virt = some page ∧ s' = s ∨
    vmGetPage s virt = none ∧
      (s.dir (pdptGetIndex virt) (pdirGetIndex virt)).present = false ∧
      ∃ t u, allocatePages (s.openDir virt flags) = .ok (t, u) ∧ t ≠ 0 ∧
        page = (t, pageGetIndex virt) ∧ s' = u.installTable virt t := by
  rcases hget : vmGetPage s virt with _ | r
  · have hnone := (vmGetPage_eq_none hv).mp hget
    rcases hdir : (s.dir (pdptGetIndex virt) (pdirGetIndex virt)).present with _ | _
    · refine Or.inr ⟨rfl, rfl, ?_⟩
      rcases halloc : allocatePages (s.openDir virt flags) with f | ⟨t, u⟩
      · simp [findEntry_of_absent_error hget hdir halloc] at h
      · by_cases ht : t = 0
        · subst ht
          simp [findEntry_of_absent_null hget hdir halloc] at h
        · rw [findEntry_of_absent hget hdir halloc ht, Except.ok.injEq, Prod.mk.injEq] at h
          exact ⟨t, u, rfl, ht, h.1.symm, h.2.symm⟩
    · simp [findEntry_of_present hget hdir hnone] at h
  · simp only [findEntry, hget, Except.ok.injEq, Prod.mk.injEq] at h
    exact Or.inl ⟨by rw [h.1], h.2.symm⟩

/-- One page. -/
theorem mapVirtualAddress_page {phys : ℕ} {page : EntryRef} (hv : InKernel virt)
    (hfind : findEntry allocatePages s virt flags = .ok (page, s')) :
    mapVirtualAddress allocatePages 1 s phys virt flags =
      .ok (s'.setEntry page (mapEntry phys flags)) := by
  rw [mapVirtualAddress, if_pos hv.pml4GetIndex, hfind]
  rfl

/-- One round of the loop that does not fail. -/
theorem mapVirtualAddress_succ {n phys : ℕ}
    (h : mapVirtualAddress allocatePages (n + 1) s phys virt flags = .ok s') :
    ∃ page u, findEntry allocatePages s virt flags = .ok (page, u) ∧
      mapVirtualAddress allocatePages n (u.setEntry page (mapEntry phys flags))
        ((phys + archPageSize) % 2 ^ 64) ((virt + archPageSize) % 2 ^ 64) flags = .ok s' := by
  rw [mapVirtualAddress] at h
  split at h
  · split at h
    · simp at h
    · rename_i page u hfind
      exact ⟨page, u, hfind, h⟩
  · simp at h

/-- The page behind a page of the kernel is one too, unless it is the last. -/
theorem inKernel_next (hv : InKernel virt)
    (hindex : pml4GetIndex ((virt + archPageSize) % 2 ^ 64) = 511) :
    (virt + archPageSize) % 2 ^ 64 = virt + archPageSize ∧ InKernel (virt + archPageSize) := by
  rw [pml4GetIndex, ← Fin.val_inj, tableIndex_val] at hindex
  have hindex' : (virt + archPageSize) % 2 ^ 64 / 2 ^ 39 % 512 = 511 := hindex
  obtain ⟨h1, h2⟩ := hv
  have hlt : virt + archPageSize < 2 ^ 64 := by
    dsimp only [archPageSize, kernelAddrSpace] at *
    omega
  exact ⟨Nat.mod_eq_of_lt hlt, h1.trans (Nat.le_add_right _ _), hlt⟩

/-- The next page is a page of the kernel too, if the next round does not fail. -/
theorem next_inKernel {n phys : ℕ} (hv : InKernel virt) (hn : n ≠ 0)
    (h : mapVirtualAddress allocatePages n s phys ((virt + archPageSize) % 2 ^ 64) flags = .ok s') :
    (virt + archPageSize) % 2 ^ 64 = virt + archPageSize ∧ InKernel (virt + archPageSize) := by
  obtain ⟨n, rfl⟩ := Nat.exists_eq_succ_of_ne_zero hn
  rw [mapVirtualAddress] at h
  split at h
  · rename_i hindex
    exact inKernel_next hv hindex
  · simp at h

/-- One round of the loop, as something that is written. -/
theorem round_writes (phys : ℕ) {page : EntryRef}
    (hlog : ∀ u t u', allocatePages u = .ok (t, u') → Writes u (allocLog u) u')
    (hv : InKernel virt) (h : findEntry allocatePages s virt flags = .ok (page, s')) :
    Writes s (findLog allocLog s virt flags ++ [⟨virt, phys, flags⟩])
      (s'.setEntry page (mapEntry phys flags)) := by
  rcases findEntry_cases hv h with ⟨hget, rfl⟩ | ⟨hget, habsent, t, w, halloc, ht, rfl, rfl⟩
  · rw [findLog, hget]
    exact Writes.old (x := ⟨virt, phys, flags⟩) hv hget Writes.nil
  · rw [findLog, hget]
    simp only [habsent, Bool.not_false, if_true]
    exact Writes.new (x := ⟨virt, phys, flags⟩) hv hget habsent (hlog _ _ _ halloc) ht Writes.nil

/-- **A call that returns has written its log**, if the allocations within have written theirs. -/
theorem mapVirtualAddress_writes {n phys : ℕ}
    (hlog : ∀ u t u', allocatePages u = .ok (t, u') → Writes u (allocLog u) u')
    (hv : n ≠ 0 → InKernel virt)
    (hrun : mapVirtualAddress allocatePages n s phys virt flags = .ok s') :
    Writes s (mapLog allocatePages allocLog n s phys virt flags) s' := by
  induction n generalizing s phys virt with
  | zero =>
    rw [mapVirtualAddress, Except.ok.injEq] at hrun
    exact hrun ▸ Writes.nil
  | succ n ih =>
    have hk := hv (Nat.succ_ne_zero n)
    obtain ⟨page, u, hfind, hrest⟩ := mapVirtualAddress_succ hrun
    have hnext : n ≠ 0 → InKernel ((virt + archPageSize) % 2 ^ 64) := by
      intro hn
      obtain ⟨heq, hin⟩ := next_inKernel hk hn hrest
      rwa [heq]
    have hboth := (round_writes phys hlog hk hfind).trans (ih hnext hrest)
    rw [List.append_assoc, List.singleton_append] at hboth
    rw [mapLog, hfind]
    exact hboth

/-- Finding an entry takes no table away. -/
theorem findEntry_pointer {page : EntryRef} {i j : Fin 512} {t : ℕ}
    (hlog : ∀ u t u', allocatePages u = .ok (t, u') → Writes u (allocLog u) u')
    (hv : InKernel virt) (h : findEntry allocatePages s virt flags = .ok (page, s'))
    (ht : s.pointer i j = some t) : s'.pointer i j = some t := by
  exact (round_writes 0 hlog hv h).pointer ht

/-- **Why the entry for an address is not found**: its table is missing though the directory entry
is in use, or no page for a table is to be had. -/
theorem findEntry_error_cases {f : Fault} (hv : InKernel virt)
    (hzero : ∀ u t u', allocatePages u = .ok (t, u') → t ≠ 0)
    (h : findEntry allocatePages s virt flags = .error f) :
    vmGetPage s virt = none ∧
      ((s.dir (pdptGetIndex virt) (pdirGetIndex virt)).present = true ∧ f = .nullDereference ∨
      (s.dir (pdptGetIndex virt) (pdirGetIndex virt)).present = false ∧
        allocatePages (s.openDir virt flags) = .error f) := by
  rcases hget : vmGetPage s virt with _ | page
  · have hnone := (vmGetPage_eq_none hv).mp hget
    refine ⟨rfl, ?_⟩
    rcases hdir : (s.dir (pdptGetIndex virt) (pdirGetIndex virt)).present with _ | _
    · refine Or.inr ⟨rfl, ?_⟩
      rcases halloc : allocatePages (s.openDir virt flags) with f' | ⟨t, u⟩
      · rw [findEntry_of_absent_error hget hdir halloc, Except.error.injEq] at h
        rw [h]
      · rw [findEntry_of_absent hget hdir halloc (hzero _ _ _ halloc)] at h
        simp at h
    · rw [findEntry_of_present hget hdir hnone, Except.error.injEq] at h
      exact Or.inl ⟨rfl, h.symm⟩
  · simp [findEntry, hget] at h

/-- The entry for an address is not found only when no page for a table is to be had. -/
theorem findEntry_fails {f : Fault} (hs : s.Complete) (hv : InKernel virt)
    (hzero : ∀ u t u', allocatePages u = .ok (t, u') → t ≠ 0)
    (h : findEntry allocatePages s virt flags = .error f) :
    vmGetPage s virt = none ∧
      (s.dir (pdptGetIndex virt) (pdirGetIndex virt)).present = false ∧
      allocatePages (s.openDir virt flags) = .error f := by
  obtain ⟨hget, ⟨hpresent, -⟩ | ⟨habsent, halloc⟩⟩ := findEntry_error_cases hv hzero h
  · exact absurd ((vmGetPage_eq_none hv).mp hget) (hs _ _ hpresent)
  · exact ⟨hget, habsent, halloc⟩

/-- **A call fails only when an allocation within does**, if no table is missing that should be
there. -/
theorem mapVirtualAddress_fails {n phys : ℕ} {f : Fault}
    (hlog : ∀ u t u', allocatePages u = .ok (t, u') → Writes u (allocLog u) u')
    (hzero : ∀ u t u', allocatePages u = .ok (t, u') → t ≠ 0) (hs : s.Complete)
    (hlow : n ≠ 0 → kernelAddrSpace ≤ virt) (hhigh : virt + n * archPageSize ≤ 2 ^ 64)
    (hrun : mapVirtualAddress allocatePages n s phys virt flags = .error f) :
    ∃ u, allocatePages u = .error f := by
  induction n generalizing s phys virt with
  | zero => simp [mapVirtualAddress] at hrun
  | succ n ih =>
    have hv : InKernel virt := ⟨hlow (Nat.succ_ne_zero n), by
      dsimp only [archPageSize] at *; omega⟩
    rw [mapVirtualAddress, if_pos hv.pml4GetIndex] at hrun
    split at hrun
    · rename_i f' hfind
      rw [Except.error.injEq] at hrun
      exact ⟨_, (findEntry_fails hs hv hzero (hrun ▸ hfind)).2.2⟩
    · rename_i page u hfind
      refine ih ((round_writes phys hlog hv hfind).complete hs) (fun hn ↦ ?_) ?_ hrun
      · rw [add_page_mod hhigh hn]
        exact hv.1.trans (Nat.le_add_right _ _)
      · have := Nat.mod_le (virt + archPageSize) (2 ^ 64)
        rw [Nat.succ_mul] at hhigh
        omega

/-- Page `p` is that of a table which was made on the way from `s` to `s'`. -/
def NewTable (s s' : Paging ρ) (p : ℕ) : Prop :=
  ∃ i j t, s.pointer i j = none ∧ s'.pointer i j = some t ∧ t / archPageSize = p

theorem NewTable.mono {u u' : Paging ρ} {p : ℕ} (h : NewTable u u' p)
    (hs : ∀ i j t, s.pointer i j = some t → u.pointer i j = some t)
    (hs' : ∀ i j t, u'.pointer i j = some t → s'.pointer i j = some t) : NewTable s s' p := by
  obtain ⟨i, j, t, hnone, hsome, hp⟩ := h
  refine ⟨i, j, t, ?_, hs' i j t hsome, hp⟩
  rcases hi : s.pointer i j with _ | t'
  · rfl
  · rw [hs i j t' hi] at hnone
    simp at hnone

/-- The numbers of the pages behind the first. -/
theorem mem_pagesOf_succ {n p : ℕ} :
    p ∈ pagesOf virt (n + 1) ↔ p = virt / archPageSize ∨ p ∈ pagesOf (virt + archPageSize) n := by
  have hdiv : (virt + archPageSize) / archPageSize = virt / archPageSize + 1 :=
    Nat.add_div_right _ (by decide)
  constructor
  · rintro ⟨k, hk, rfl⟩
    rcases k with _ | k
    · exact Or.inl rfl
    · exact Or.inr ⟨k, by omega, by rw [hdiv]; omega⟩
  · rintro (rfl | ⟨k, hk, rfl⟩)
    · exact ⟨0, by omega, rfl⟩
    · exact ⟨k + 1, by omega, by rw [hdiv]; omega⟩

/-- **Which pages a call maps**: those of its range, and those of the tables it has made. -/
theorem mapLog_pages {n phys : ℕ}
    (hlog : ∀ u t u', allocatePages u = .ok (t, u') → Writes u (allocLog u) u')
    (hpages : ∀ u t u', allocatePages u = .ok (t, u') →
      ∀ x ∈ allocLog u, x.page = t / archPageSize ∨ NewTable u u' x.page)
    (hv : n ≠ 0 → InKernel virt)
    (hrun : mapVirtualAddress allocatePages n s phys virt flags = .ok s') :
    ∀ x ∈ mapLog allocatePages allocLog n s phys virt flags,
      x.page ∈ pagesOf virt n ∧ x.flags = flags ∨ NewTable s s' x.page := by
  induction n generalizing s phys virt with
  | zero => exact fun x hx ↦ absurd hx List.not_mem_nil
  | succ n ih =>
    have hk := hv (Nat.succ_ne_zero n)
    obtain ⟨page, u, hfind, hrest⟩ := mapVirtualAddress_succ hrun
    have hnext := fun hn ↦ next_inKernel hk hn hrest
    have hnext' : n ≠ 0 → InKernel ((virt + archPageSize) % 2 ^ 64) := by
      intro hn
      rw [(hnext hn).1]
      exact (hnext hn).2
    have hloop := mapVirtualAddress_writes hlog hnext' hrest
    -- the pages of the rounds that follow
    have hlater : ∀ x ∈ mapLog allocatePages allocLog n (u.setEntry page (mapEntry phys flags))
        ((phys + archPageSize) % 2 ^ 64) ((virt + archPageSize) % 2 ^ 64) flags,
        x.page ∈ pagesOf virt (n + 1) ∧ x.flags = flags ∨ NewTable u s' x.page := by
      intro x hx
      have hn : n ≠ 0 := by
        rintro rfl
        exact absurd hx List.not_mem_nil
      rcases ih hnext' hrest x hx with ⟨hmem, hflags⟩ | hnew
      · rw [(hnext hn).1] at hmem
        exact Or.inl ⟨mem_pagesOf_succ.mpr (Or.inr hmem), hflags⟩
      · exact Or.inr hnew
    have hself : (⟨virt, phys, flags⟩ : Mapping).page ∈ pagesOf virt (n + 1) :=
      mem_pagesOf_succ.mpr (Or.inl rfl)
    intro x hx
    rw [mapLog, hfind] at hx
    dsimp only at hx
    rcases findEntry_cases hk hfind with ⟨hget, rfl⟩ | ⟨hget, habsent, t, w, halloc, ht, rfl, rfl⟩
    · rw [findLog, hget, List.nil_append, List.mem_cons] at hx
      rcases hx with rfl | hx
      · exact Or.inl ⟨hself, rfl⟩
      · exact hlater x hx
    · have hnone := (vmGetPage_eq_none hk).mp hget
      have hin := hlog _ _ _ halloc
      have hinstall : ∀ i j t', w.pointer i j = some t' →
          (w.installTable virt t).pointer i j = some t' :=
        fun i j t' ht' ↦ hin.installTable_pointer hnone ht'
      rw [findLog, hget] at hx
      simp only [habsent, Bool.not_false, if_true, List.mem_append, List.mem_cons] at hx
      rcases hx with hx | rfl | hx
      · -- a page mapped while the table was made
        rcases hpages _ _ _ halloc x hx with hpage | hnew
        · exact Or.inr ⟨_, _, t, hnone, hloop.pointer (installTable_self virt t), hpage.symm⟩
        · exact Or.inr (hnew.mono (fun i j t' h ↦ h) fun i j t' h ↦
            hloop.pointer (hinstall i j t' h))
      · exact Or.inl ⟨hself, rfl⟩
      · exact (hlater x hx).imp_right fun hnew ↦ hnew.mono
          (fun i j t' h ↦ findEntry_pointer hlog hk hfind h) fun i j t' h ↦ h

/-- The flags of the pages a call maps are its own, or those of the allocations within. -/
theorem mapLog_flags {P : ℕ → Prop} {n phys : ℕ} (hwithin : ∀ u, ∀ x ∈ allocLog u, P x.flags)
    (hflags : P flags) :
    ∀ x ∈ mapLog allocatePages allocLog n s phys virt flags, P x.flags := by
  induction n generalizing s phys virt with
  | zero => exact fun x hx ↦ absurd hx List.not_mem_nil
  | succ n ih =>
    intro x hx
    rw [mapLog, List.mem_append] at hx
    rcases hx with hx | hx
    · rw [findLog] at hx
      split at hx
      · exact absurd hx List.not_mem_nil
      · split at hx
        · exact hwithin _ x hx
        · exact absurd hx List.not_mem_nil
    · split at hx
      · exact absurd hx List.not_mem_nil
      · rcases List.mem_cons.mp hx with rfl | hx
        · exact hflags
        · exact ih x hx

/-- A call that returns has mapped something. -/
theorem mapLog_ne_nil {n phys : ℕ} (hn : n ≠ 0)
    (hrun : mapVirtualAddress allocatePages n s phys virt flags = .ok s') :
    mapLog allocatePages allocLog n s phys virt flags ≠ [] := by
  obtain ⟨n, rfl⟩ := Nat.exists_eq_succ_of_ne_zero hn
  obtain ⟨page, u, hfind, -⟩ := mapVirtualAddress_succ hrun
  rw [mapLog, hfind]
  exact List.append_ne_nil_of_right_ne_nil _ (List.cons_ne_nil _ _)

/-- **The last entry for a page of the range** is the one the call was asked for, if no table it has
made lies in the range. -/
theorem lastOn_mapLog {n phys k : ℕ}
    (hlog : ∀ u t u', allocatePages u = .ok (t, u') → Writes u (allocLog u) u')
    (hpages : ∀ u t u', allocatePages u = .ok (t, u') →
      ∀ x ∈ allocLog u, x.page = t / archPageSize ∨ NewTable u u' x.page)
    (hv : InKernel virt) (hphys : phys + n * archPageSize ≤ 2 ^ 64)
    (hrun : mapVirtualAddress allocatePages n s phys virt flags = .ok s')
    (hout : ∀ p ∈ pagesOf virt n, ¬ NewTable s s' p) (hk : k < n) :
    lastOn (virt / archPageSize + k) (mapLog allocatePages allocLog n s phys virt flags) =
      some ⟨virt + archPageSize * k, phys + archPageSize * k, flags⟩ := by
  induction n generalizing s phys virt k with
  | zero => exact absurd hk (Nat.not_lt_zero k)
  | succ n ih =>
    obtain ⟨page, u, hfind, hrest⟩ := mapVirtualAddress_succ hrun
    have hnext := fun hn ↦ next_inKernel hv hn hrest
    have hkeep := fun i j t ↦ findEntry_pointer (i := i) (j := j) (t := t) hlog hv hfind
    have hdiv : (virt + archPageSize) / archPageSize = virt / archPageSize + 1 :=
      Nat.add_div_right _ (by decide)
    rw [mapLog, hfind, lastOn_append]
    dsimp only
    rw [lastOn_cons]
    rcases k with _ | k
    · -- what follows is on other pages
      rw [Nat.mul_zero, Nat.add_zero, Nat.add_zero, Nat.add_zero]
      have hnone : lastOn (virt / archPageSize) (mapLog allocatePages allocLog n
          (u.setEntry page (mapEntry phys flags)) ((phys + archPageSize) % 2 ^ 64)
          ((virt + archPageSize) % 2 ^ 64) flags) = none := by
        rw [lastOn_eq_none]
        intro x hx hpage
        have hn : n ≠ 0 := by
          rintro rfl
          exact absurd hx List.not_mem_nil
        obtain ⟨heq, hin⟩ := hnext hn
        rw [heq] at hrest hx
        rcases mapLog_pages hlog hpages (fun _ ↦ hin) hrest x hx with ⟨hmem, -⟩ | hnew
        · obtain ⟨k, -, hk'⟩ := hmem
          rw [hdiv, hpage] at hk'
          omega
        · rw [hpage] at hnew
          refine hout _ (mem_pagesOf_succ.mpr (Or.inl rfl)) (hnew.mono hkeep fun i j t h ↦ h)
      have hself : (⟨virt, phys, flags⟩ : Mapping).page = virt / archPageSize := rfl
      rw [hnone, Option.none_or, if_pos hself, Option.some_or]
    · have hn : n ≠ 0 := by omega
      obtain ⟨heq, hin⟩ := hnext hn
      rw [heq] at hrest ⊢
      have hmod : (phys + archPageSize) % 2 ^ 64 = phys + archPageSize :=
        add_page_mod hphys hn
      rw [hmod] at hrest ⊢
      have hlast := ih hin (by rw [Nat.succ_mul] at hphys; omega) hrest (fun p hp hnew ↦
        hout p (mem_pagesOf_succ.mpr (Or.inr hp)) (hnew.mono hkeep fun i j t h ↦ h))
        (show k < n by omega)
      rw [hdiv, Nat.add_assoc, Nat.add_comm 1 k] at hlast
      rw [hlast, Option.some_or, Option.some_or, Option.some.injEq, Mapping.mk.injEq]
      exact ⟨by rw [Nat.mul_succ]; omega, by rw [Nat.mul_succ]; omega, rfl⟩

end Calls

end CubikOS

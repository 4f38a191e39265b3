import CubikOS.Mm.SlubInit
import CubikOS.Mm.SlubPage

/-!
# How a page is cut up

`__slab_SetPage` of `Kernel/src/mm/slub.c` for a cache of any size, as `__slab_SetCache` leaves it.

How many objects there are is worked out with `int`s and kept in 15 bits.  `reserved` is what is
left of the page, but where the size divides a page nobody has written it.  The loop links each
object to the next, and leaves the last one as it is.

* `slabSetPageOf_ok` says what comes of a number of objects that fit.
* `freeList_pageObjects_iff` says when the list has an end.
* `slabSetPageOf_carves_iff` says when all is well.
-/

set_option autoImplicit false

namespace CubikOS

open Bytes

/-! ## The function -/

/-- An `int` that is worked out. -/
def toInt (z : ℤ) : ℤ := z.bmod (2 ^ 32)

/-- `(ARCH_PAGE_SIZE - reserved) / size`, in 15 bits. -/
def slabObjectsOf (reserved size : ℤ) : ℕ :=
  ((toInt (archPageSize - reserved)).tdiv size % 2 ^ 15).toNat

/-- What `__slab_SetPage` makes `page->slab_objects`. -/
def KMemoryCache.objects (cache : KMemoryCache) : ℕ := slabObjectsOf cache.reserved cache.size

/-- `__slab_SetPage(cache, page, virt)`. -/
def slabSetPageOf (cache : KMemoryCache) (s : SlabState) (page virt : ℕ) : Except Fault SlabState :=
  setPageLoop cache.size.toNat virt (setPageBound cache.objects) 0
    (s.setPage page ⟨0, cache.objects, virt⟩)

/-- The free objects from `a` on, each of which holds the address of the next. -/
inductive FreeList (m : ℕ → BitVec 8) : ℕ → List ℕ → Prop
  | null : FreeList m 0 []
  | cons {a : ℕ} {l : List ℕ} (ha : a ≠ 0) (hl : FreeList m (readBytes m a 8) l) :
    FreeList m a (a :: l)

/-- What is expected of `__slab_SetPage`. -/
structure KMemoryCache.Carves (cache : KMemoryCache) (s s' : SlabState) (page virt : ℕ) :
    Prop where
  /-- It returns. -/
  run : slabSetPageOf cache s page virt = .ok s'
  /-- There is an object. -/
  pos : 1 ≤ (s'.page page).slabObjects
  /-- The objects fit. -/
  fits : (s'.page page).slabObjects * cache.size ≤ archPageSize
  /-- There is a round for each object but one. -/
  rounds : setPageBound (s'.page page).slabObjects = (s'.page page).slabObjects - 1
  /-- The links lie in the page. -/
  inside : ∀ idx, idx < setPageBound (s'.page page).slabObjects →
    idx * cache.size + 8 ≤ archPageSize
  /-- Nothing else is written. -/
  outside : ∀ a, a < 2 ^ 64 → a < virt ∨ virt + archPageSize ≤ a → s'.mem a = s.mem a
  /-- The list goes through all of the objects, and ends. -/
  list : FreeList s'.mem (s'.page page).freelist
    (pageObjects virt cache.size.toNat (s'.page page).slabObjects)
  /-- No object is on it twice. -/
  nodup : (pageObjects virt cache.size.toNat (s'.page page).slabObjects).Nodup

/-! ## The number of objects -/

section Objects

variable {size : ℕ}

theorem toInt_of_le {z : ℤ} (h0 : 0 ≤ z) (hle : z ≤ archPageSize) : toInt z = z := by
  dsimp only [archPageSize] at hle
  exact Int.bmod_eq_of_le (by omega) (by omega)

/-- Where `reserved` is a number of bytes of the page, the division is one of natural numbers. -/
theorem slabObjectsOf_natCast {reserved : ℕ} (h : reserved ≤ archPageSize) :
    slabObjectsOf reserved size = (archPageSize - reserved) / size % 2 ^ 15 := by
  have hsub : (archPageSize : ℤ) - reserved = ((archPageSize - reserved : ℕ) : ℤ) := by omega
  rw [slabObjectsOf, toInt_of_le (by omega) (by omega), hsub, ← Int.ofNat_tdiv]
  norm_cast

/-- In a page of which the rest is known, there are as many objects as fit. -/
theorem slabObjectsOf_rest (h8 : 8 ≤ size) :
    slabObjectsOf (archPageSize - archPageSize / size * size : ℕ) size = archPageSize / size := by
  have hle : archPageSize / size * size ≤ archPageSize := Nat.div_mul_le_self _ _
  have hbound : archPageSize / size ≤ 512 :=
    (Nat.div_le_div_left h8 (by decide)).trans (by decide)
  rw [slabObjectsOf_natCast (Nat.sub_le _ _), Nat.sub_sub_self hle,
    Nat.mul_div_cancel _ (by omega)]
  exact Nat.mod_eq_of_lt (by omega)

/-- How many objects a cache has in a page, once `__slab_SetCache` has set it up. -/
theorem KMemoryCache.set_objects (cache : KMemoryCache) (addr flags : ℕ) (h8 : 8 ≤ size) :
    (cache.set addr size flags).objects =
      if size ∣ archPageSize then slabObjectsOf cache.reserved size else archPageSize / size := by
  rw [KMemoryCache.objects, KMemoryCache.set]
  dsimp only
  by_cases hdvd : size ∣ archPageSize
  · rw [if_pos hdvd, if_neg (not_not.mpr (Nat.mod_eq_zero_of_dvd hdvd))]
  · rw [if_neg hdvd, if_pos fun h ↦ hdvd (Nat.dvd_of_mod_eq_zero h), slabObjectsOf_rest h8]

/-- The caches of `SlabState` are cut up in the same way. -/
theorem slabSetPage_eq {s : SlabState} {k : CacheIndex} {cache : KMemoryCache}
    (hsize : cache.size = s.size k) (hreserved : cache.reserved = s.reserved k)
    (h : s.reserved k ≤ archPageSize) (page virt : ℕ) :
    slabSetPage s k page virt = slabSetPageOf cache s page virt := by
  have hobjects : cache.objects = s.objects k := by
    rw [KMemoryCache.objects, hsize, hreserved, slabObjectsOf_natCast h, SlabState.objects]
  rw [slabSetPage, slabSetPageOf, hobjects, hsize, Int.toNat_natCast]

end Objects

/-! ## The list -/

section List

variable {m : ℕ → BitVec 8} {virt size n : ℕ}

theorem pageObjects_cons (virt size n : ℕ) :
    pageObjects virt size (n + 1) = virt :: pageObjects (virt + size) size n := by
  rw [pageObjects, pageObjects, List.range_succ_eq_map, List.map_cons, List.map_map]
  refine congrArg₂ List.cons (by omega) (List.map_congr_left fun i _ ↦ ?_)
  simp only [Function.comp_apply, Nat.succ_mul]
  omega

theorem nodup_pageObjects (hsize : 0 < size) : (pageObjects virt size n).Nodup := by
  refine List.Nodup.map (fun i j hij ↦ ?_) List.nodup_range
  exact Nat.eq_of_mul_eq_mul_right hsize (Nat.add_left_cancel hij)

theorem freeList_nil_iff {a : ℕ} : FreeList m a [] ↔ a = 0 := by
  constructor
  · intro h
    cases h
    rfl
  · rintro rfl
    exact .null

theorem freeList_cons_iff {a : ℕ} {l : List ℕ} :
    FreeList m a (a :: l) ↔ a ≠ 0 ∧ FreeList m (readBytes m a 8) l := by
  constructor
  · intro h
    cases h with
    | cons ha hl => exact ⟨ha, hl⟩
  · rintro ⟨ha, hl⟩
    exact .cons ha hl

/-- **The list ends if the last object says so**, the others being linked. -/
theorem freeList_pageObjects_iff (hvirt : virt ≠ 0)
    (hlinks : ∀ i, i < n → readBytes m (virt + i * size) 8 = virt + (i + 1) * size) :
    FreeList m virt (pageObjects virt size (n + 1)) ↔
      readBytes m (virt + n * size) 8 = 0 := by
  induction n generalizing virt with
  | zero =>
    rw [pageObjects_cons, freeList_cons_iff, and_iff_right hvirt, Nat.zero_mul, Nat.add_zero]
    exact freeList_nil_iff
  | succ n ih =>
    have hnext : readBytes m virt 8 = virt + size := by
      have := hlinks 0 (Nat.succ_pos n)
      rwa [Nat.zero_mul, Nat.add_zero, Nat.zero_add, Nat.one_mul] at this
    have hrest : ∀ i, i < n → readBytes m (virt + size + i * size) 8 =
        virt + size + (i + 1) * size := by
      intro i hi
      have := hlinks (i + 1) (by omega)
      rw [Nat.succ_mul (i + 1), Nat.succ_mul i] at this
      rw [Nat.succ_mul i, Nat.add_assoc, Nat.add_comm size, this]
      omega
    have hpos : virt + size ≠ 0 := fun h ↦ hvirt (Nat.eq_zero_of_add_eq_zero_right h)
    rw [pageObjects_cons, freeList_cons_iff, and_iff_right hvirt, hnext, ih hpos hrest,
      Nat.succ_mul, Nat.add_comm (n * size), ← Nat.add_assoc]

end List

/-! ## A page -/

section Page

variable {cache : KMemoryCache} {s s' : SlabState} {page virt size : ℕ}

/-- What is in the descriptor. -/
theorem slabSetPageOf_page (h : slabSetPageOf cache s page virt = .ok s') :
    s'.page page = ⟨0, cache.objects, virt⟩ := by
  obtain ⟨m, rfl⟩ := setPageLoop_ok h
  exact Function.update_self page _ _

/-- **A number of objects that fit**: the loop links them and does nothing else. -/
theorem slabSetPageOf_ok (page : ℕ) (hc : Carved virt size) (hsize : cache.size = size)
    (hmap : s.mapped (virt / archPageSize) = true) {n : ℕ} (hobjects : cache.objects = n + 1)
    (hfit : n + 1 ≤ archPageSize / size) :
    ∃ s', slabSetPageOf cache s page virt = .ok s' ∧
      (∀ i, i < n → readBytes s'.mem (virt + i * size) 8 = virt + (i + 1) * size) ∧
      ∀ a, a < 2 ^ 64 → a < virt ∨ virt + n * size ≤ a → s'.mem a = s.mem a := by
  have hbound : setPageBound cache.objects = n := by
    rw [hobjects, setPageBound, if_neg (Nat.succ_ne_zero n), Nat.add_sub_cancel]
  obtain ⟨m, hrun, hlinks, hframe⟩ := setPageLoop_spec
    (s := s.setPage page ⟨0, cache.objects, virt⟩) (n := n) hc hmap
    (show 0 + n < archPageSize / size by omega)
  refine ⟨{ s.setPage page ⟨0, cache.objects, virt⟩ with mem := m }, ?_,
    fun i hi ↦ hlinks i (Nat.zero_le i) (by omega), fun a ha hout ↦ hframe a ha ?_⟩
  · rw [slabSetPageOf, hbound, hsize, Int.toNat_natCast, hrun]
  · rwa [Nat.zero_mul, Nat.add_zero, Nat.zero_add]

/-- The link of the last object is not written. -/
theorem readBytes_last (hc : Carved virt size) {n : ℕ} (hfit : n + 1 ≤ archPageSize / size)
    (hframe : ∀ a, a < 2 ^ 64 → a < virt ∨ virt + n * size ≤ a → s'.mem a = s.mem a) :
    readBytes s'.mem (virt + n * size) 8 = readBytes s.mem (virt + n * size) 8 := by
  have hle := hc.object_le hfit
  have h8 := hc.link_le
  have hend := hc.end_le
  exact readBytes_congr (by omega) fun i hi ↦ hframe _ (by omega) (Or.inr (by omega))

/-- **The list of a page that has been cut up** ends with the last object if that one held 0
before. -/
theorem slabSetPageOf_freeList_iff (hc : Carved virt size) (hsize : cache.size = size)
    (hmap : s.mapped (virt / archPageSize) = true) {n : ℕ} (hobjects : cache.objects = n + 1)
    (hfit : n + 1 ≤ archPageSize / size) (h : slabSetPageOf cache s page virt = .ok s') :
    FreeList s'.mem virt (pageObjects virt size (n + 1)) ↔
      readBytes s.mem (virt + n * size) 8 = 0 := by
  obtain ⟨t, hrun, hlinks, hframe⟩ := slabSetPageOf_ok page hc hsize hmap hobjects hfit
  obtain rfl : t = s' := Except.ok.inj (hrun.symm.trans h)
  rw [freeList_pageObjects_iff hc.virt_ne hlinks, readBytes_last hc hfit hframe]

/-- Objects that fit are cut up as they should be if the last of them holds 0. -/
theorem carves_of_last (page : ℕ) (hc : Carved virt size) (hsize : cache.size = size)
    (hmap : s.mapped (virt / archPageSize) = true) {n : ℕ} (hobjects : cache.objects = n + 1)
    (hfit : n + 1 ≤ archPageSize / size) (hlast : readBytes s.mem (virt + n * size) 8 = 0) :
    ∃ s', cache.Carves s s' page virt := by
  have h8 := hc.link_le
  have hpos : 0 < size := by omega
  have hmul : (n + 1) * size ≤ archPageSize := (Nat.le_div_iff_mul_le hpos).mp hfit
  obtain ⟨s', hrun, -, hframe⟩ := slabSetPageOf_ok page hc hsize hmap hobjects hfit
  have hpage := slabSetPageOf_page hrun
  rw [hobjects] at hpage
  refine ⟨s', hrun, ?_, ?_, ?_, ?_, ?_, ?_, ?_⟩
  · rw [hpage]
    exact Nat.succ_pos n
  · rw [hpage, hsize]
    exact_mod_cast hmul
  · rw [hpage]
    rfl
  · intro idx hidx
    rw [hpage] at hidx
    have hidx : idx < n := hidx
    have hobject : (idx + 1) * size ≤ (n + 1) * size := Nat.mul_le_mul_right size (by omega)
    rw [Nat.succ_mul] at hobject
    rw [hsize]
    have : idx * size + 8 ≤ archPageSize := by omega
    exact_mod_cast this
  · intro a ha hout
    refine hframe a ha (hout.imp_right fun hge ↦ ?_)
    rw [Nat.succ_mul] at hmul
    omega
  · rw [hpage, hsize, Int.toNat_natCast]
    exact (slabSetPageOf_freeList_iff hc hsize hmap hobjects hfit hrun).mpr hlast
  · rw [hsize, Int.toNat_natCast]
    exact nodup_pageObjects hpos

/-- **When a page is cut up as it should be**: there is room for the number of objects that comes
out, and the last of them happens to hold 0. -/
theorem carves_iff (hc : Carved virt size) (hsize : cache.size = size)
    (hmap : s.mapped (virt / archPageSize) = true) :
    (∃ s', cache.Carves s s' page virt) ↔
      1 ≤ cache.objects ∧ cache.objects ≤ archPageSize / size ∧
        readBytes s.mem (virt + (cache.objects - 1) * size) 8 = 0 := by
  have h8 := hc.link_le
  have hpos : 0 < size := by omega
  constructor
  · rintro ⟨s', h⟩
    have hpage := slabSetPageOf_page h.run
    have hone := h.pos
    have hfits := h.fits
    have hlist := h.list
    rw [hpage] at hone hfits hlist
    dsimp only at hone hfits hlist
    rw [hsize] at hfits hlist
    have hle : cache.objects ≤ archPageSize / size :=
      (Nat.le_div_iff_mul_le hpos).mpr (by exact_mod_cast hfits)
    obtain ⟨n, hn⟩ := Nat.exists_eq_add_of_le' hone
    rw [hn] at hle hlist ⊢
    rw [Int.toNat_natCast, slabSetPageOf_freeList_iff hc hsize hmap hn hle h.run] at hlist
    exact ⟨Nat.succ_pos n, hle, by rwa [Nat.add_sub_cancel]⟩
  · rintro ⟨hone, hle, hlast⟩
    obtain ⟨n, hn⟩ := Nat.exists_eq_add_of_le' hone
    rw [hn] at hle hlast
    rw [Nat.add_sub_cancel] at hlast
    exact carves_of_last page hc hsize hmap hn hle hlast

/-- **When `__slab_SetPage` keeps to the page**, for a cache that `__slab_SetCache` has set up: the
page has room for an object, the last object happens to hold 0, and if the size divides a page what
happens to be in `reserved` makes for one object or more, and no more than fit. -/
theorem slabSetPageOf_carves_iff (old : KMemoryCache) (addr flags page : ℕ) (h8 : 8 ≤ size)
    (hvirt : virt ≠ 0) (haligned : archPageSize ∣ virt) (hlt : virt < 2 ^ 64)
    (hmap : s.mapped (virt / archPageSize) = true) :
    (∃ s', (old.set addr size flags).Carves s s' page virt) ↔
      size ≤ archPageSize ∧ ∃ n,
        (if size ∣ archPageSize
          then n = slabObjectsOf old.reserved size ∧ 1 ≤ n ∧ n ≤ archPageSize / size
          else n = archPageSize / size) ∧
        readBytes s.mem (virt + (n - 1) * size) 8 = 0 := by
  have hobjects := KMemoryCache.set_objects old addr flags h8
  have hpos : 0 < size := by omega
  by_cases hle : size ≤ archPageSize
  · rw [carves_iff ⟨h8, hle, hvirt, haligned, hlt⟩ rfl hmap, and_iff_right hle, hobjects]
    by_cases hdvd : size ∣ archPageSize
    · simp only [if_pos hdvd]
      constructor
      · rintro ⟨h1, h2, h3⟩
        exact ⟨_, ⟨rfl, h1, h2⟩, h3⟩
      · rintro ⟨n, ⟨rfl, h1, h2⟩, h3⟩
        exact ⟨h1, h2, h3⟩
    · have hone : 1 ≤ archPageSize / size := Nat.div_pos hle hpos
      simp only [if_neg hdvd, exists_eq_left]
      rw [and_iff_right hone, and_iff_right (le_refl _)]
  · refine iff_of_false ?_ fun h ↦ hle h.1
    rintro ⟨s', h⟩
    have hdvd : ¬ size ∣ archPageSize := fun h ↦ hle (Nat.le_of_dvd (by decide) h)
    have hone := h.pos
    rw [slabSetPageOf_page h.run, hobjects, if_neg hdvd,
      Nat.div_eq_of_lt (Nat.lt_of_not_le hle)] at hone
    exact absurd hone (Nat.not_succ_le_zero 0)

end Page

/-- A cache before it is set up, where all memory is 0. -/
def zeroCache : KMemoryCache := ⟨0, 0, 0, fun _ ↦ ⟨0, 0, 0, 0⟩, fun _ ↦ 0⟩

/-- A page of zeros is cut into objects of 1536 bytes. -/
theorem slabSetPageOf_carves_iff_1536 : ∃ s', (zeroCache.set 0xFFFFFFFF80600000 1536 0).Carves
    onePageMapped s' 5 0xFFFFFFFF80000000 :=
  (slabSetPageOf_carves_iff zeroCache 0xFFFFFFFF80600000 0 5 (by decide) (by decide) (by decide)
    (by decide) (by decide +kernel)).mpr ⟨by decide, 2, by decide, by decide +kernel⟩

/-- **A page is cut into no objects of 8192 bytes**, and its loop has no end to speak of. -/
theorem slabSetPageOf_no_objects : (zeroCache.set 0xFFFFFFFF80600000 8192 0).objects = 0 ∧
    setPageBound (zeroCache.set 0xFFFFFFFF80600000 8192 0).objects = 2 ^ 64 - 1 ∧
    ¬ ∃ s', (zeroCache.set 0xFFFFFFFF80600000 8192 0).Carves onePageMapped s' 5
      0xFFFFFFFF80000000 := by
  have hobjects : (zeroCache.set 0xFFFFFFFF80600000 8192 0).objects = 0 := by decide +kernel
  refine ⟨hobjects, by rw [hobjects]; rfl, ?_⟩
  rintro ⟨s', h⟩
  have hone := h.pos
  rw [slabSetPageOf_page h.run, hobjects] at hone
  exact absurd hone (by decide)

end CubikOS

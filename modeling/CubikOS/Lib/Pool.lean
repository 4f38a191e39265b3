import CubikOS.Lib.Buddy

/-!
# Pools of blocks

A *pool* is a finite set of aligned blocks that do not overlap.  A buddy allocator serves a request
for `2 ^ o` units from one by cutting some block that is large enough down to order `o`: it hands
out the lower end, and the upper halves go back into the pool.

* `Take.pool` and `Take.span`: what is handed out is aligned, overlaps nothing that is left, and
  together with it covers what the pool covered.
* `capacity F o` is the number of blocks of order `o` the pool can be cut into; `Take.capacity` says
  what a request costs, `demand_le_capacity` that requests which fit into the pool at all, cut up in
  whatever way, do not exceed it.
* `Enough.tail`: as long as larger requests come first, what is enough for all of them is enough for
  each.
-/

set_option autoImplicit false

namespace Buddy

/-- Aligned blocks that do not overlap. -/
structure Pool (u : ℕ) (F : Finset Block) : Prop where
  /-- Every block is aligned to its own size. -/
  aligned : ∀ c ∈ F, c.Aligned u
  /-- No two share an address. -/
  disjoint : ∀ c ∈ F, ∀ d ∈ F, c ≠ d → Disjoint (c.span u) (d.span u)

/-- The addresses of the blocks of a pool. -/
def poolSpan (u : ℕ) (F : Finset Block) : Set ℕ := {x | ∃ c ∈ F, x ∈ c.span u}

/-- The block `b` of order `o` is cut off some block of `F`, and `F'` is what is left. -/
def Take (u : ℕ) (F : Finset Block) (o : ℕ) (b : Block) (F' : Finset Block) : Prop :=
  ∃ c ∈ F, o ≤ c.order ∧ b = ⟨c.base, o⟩ ∧
    F' = F.erase c ∪ (upperHalves u c.base o (c.order - o)).toFinset

/-- How many blocks of order `o` the blocks of `F` can be cut into. -/
def capacity (F : Finset Block) (o : ℕ) : ℕ := ∑ c ∈ F with o ≤ c.order, 2 ^ (c.order - o)

variable {u o : ℕ} {b : Block} {F F' : Finset Block}

theorem mem_upperHalves {a o n : ℕ} {d : Block} :
    d ∈ upperHalves u a o n ↔ ∃ j, o ≤ j ∧ j < o + n ∧ d = upperHalf u a j := by
  simp only [upperHalves, List.mem_map, List.mem_range'_1]
  constructor
  · rintro ⟨j, hj, rfl⟩
    exact ⟨j, hj.1, hj.2, rfl⟩
  · rintro ⟨j, h1, h2, rfl⟩
    exact ⟨j, ⟨h1, h2⟩, rfl⟩

theorem Block.Aligned.of_le {a o o' : ℕ} (h : (Block.mk a o').Aligned u) (hle : o ≤ o') :
    (Block.mk a o).Aligned u :=
  (Nat.mul_dvd_mul_left u (Nat.pow_dvd_pow 2 hle)).trans h

/-- What is cut off a block, and the lower end that is left, make up the block. -/
theorem tiles_cut {c : Block} (ho : o ≤ c.order) :
    Tiles u (⟨c.base, o⟩ :: upperHalves u c.base o (c.order - o)) c := by
  have htiles := tiles_upperHalves (u := u) c.base o (c.order - o)
  rwa [Nat.add_sub_cancel' ho] at htiles

/-! ## One request -/

/-- What is left of a pool is a pool, and the block handed out is none of it. -/
theorem Take.pool (hF : Pool u F) (hT : Take u F o b F') :
    Pool u F' ∧ b.Aligned u ∧ ∀ d ∈ F', Disjoint (b.span u) (d.span u) := by
  obtain ⟨c, hc, ho, rfl, rfl⟩ := hT
  obtain ⟨hpair, hunion⟩ := tiles_cut (u := u) ho
  rw [List.pairwise_cons] at hpair
  have hsub : ∀ d ∈ (⟨c.base, o⟩ : Block) :: upperHalves u c.base o (c.order - o),
      d.span u ⊆ c.span u := fun d hd x hx ↦ (hunion x).mpr ⟨d, hd, hx⟩
  have hpart : ∀ d ∈ upperHalves u c.base o (c.order - o), d.span u ⊆ c.span u :=
    fun d hd ↦ hsub d (List.mem_cons_of_mem _ hd)
  have hold : ∀ d ∈ F.erase c, Disjoint (c.span u) (d.span u) := fun d hd ↦
    hF.disjoint c hc d (Finset.mem_of_mem_erase hd) (Finset.ne_of_mem_erase hd).symm
  refine ⟨⟨fun d hd ↦ ?_, fun d hd e he hne ↦ ?_⟩, (hF.aligned c hc).of_le ho, fun d hd ↦ ?_⟩
  · rcases Finset.mem_union.mp hd with hd | hd
    · exact hF.aligned d (Finset.mem_of_mem_erase hd)
    · obtain ⟨j, -, hj, rfl⟩ := mem_upperHalves.mp (List.mem_toFinset.mp hd)
      exact Block.Aligned.upper ((hF.aligned c hc).of_le (by omega))
  · rcases Finset.mem_union.mp hd with hd | hd <;> rcases Finset.mem_union.mp he with he | he
    · exact hF.disjoint d (Finset.mem_of_mem_erase hd) e (Finset.mem_of_mem_erase he) hne
    · exact ((hold d hd).mono_left (hpart e (List.mem_toFinset.mp he))).symm
    · exact (hold e he).mono_left (hpart d (List.mem_toFinset.mp hd))
    · exact List.Pairwise.forall hpair.2 (List.mem_toFinset.mp hd) (List.mem_toFinset.mp he) hne
  · rcases Finset.mem_union.mp hd with hd | hd
    · exact (hold d hd).mono_left (hsub _ List.mem_cons_self)
    · exact hpair.1 d (List.mem_toFinset.mp hd)

/-- Nothing is lost: the block handed out and the pool that is left cover what the pool did. -/
theorem Take.span (hT : Take u F o b F') : poolSpan u F = poolSpan u F' ∪ b.span u := by
  obtain ⟨c, hc, ho, rfl, rfl⟩ := hT
  obtain ⟨-, hunion⟩ := tiles_cut (u := u) ho
  ext x
  simp only [poolSpan, Set.mem_union, Set.mem_ofPred_eq, Finset.mem_union, List.mem_toFinset]
  constructor
  · rintro ⟨d, hd, hx⟩
    rcases eq_or_ne d c with rfl | hdc
    · obtain ⟨e, he, hxe⟩ := (hunion x).mp hx
      rcases List.mem_cons.mp he with rfl | he
      · exact Or.inr hxe
      · exact Or.inl ⟨e, Or.inr he, hxe⟩
    · exact Or.inl ⟨d, Or.inl (Finset.mem_erase.mpr ⟨hdc, hd⟩), hx⟩
  · rintro (⟨d, hd | hd, hx⟩ | hx)
    · exact ⟨d, Finset.mem_of_mem_erase hd, hx⟩
    · exact ⟨c, hc, (hunion x).mpr ⟨d, List.mem_cons_of_mem _ hd, hx⟩⟩
    · exact ⟨c, hc, (hunion x).mpr ⟨_, List.mem_cons_self, hx⟩⟩

/-- Every block lies in one that was there before. -/
theorem Take.inside (hT : Take u F o b F') :
    ∀ d, d = b ∨ d ∈ F' → ∃ c ∈ F, d.span u ⊆ c.span u := by
  obtain ⟨c, hc, ho, rfl, rfl⟩ := hT
  obtain ⟨-, hunion⟩ := tiles_cut (u := u) ho
  rintro d (rfl | hd)
  · exact ⟨c, hc, fun x hx ↦ (hunion x).mpr ⟨_, List.mem_cons_self, hx⟩⟩
  rcases Finset.mem_union.mp hd with hd | hd
  · exact ⟨d, Finset.mem_of_mem_erase hd, Set.Subset.rfl⟩
  · exact ⟨c, hc, fun x hx ↦
      (hunion x).mpr ⟨d, List.mem_cons_of_mem _ (List.mem_toFinset.mp hd), hx⟩⟩

/-! ## Capacity -/

theorem nodup_upperHalves (a o n : ℕ) : (upperHalves u a o n).Nodup :=
  List.Nodup.map (fun _ _ hij ↦ congrArg Block.order hij) List.nodup_range'

/-- The upper halves cut off on the way from order `o + n` to order `o`, counted in blocks of an
order that is no larger. -/
theorem sum_upperHalves {a o o' n : ℕ} (ho : o' ≤ o) :
    ∑ d ∈ (upperHalves u a o n).toFinset, 2 ^ (d.order - o') + 2 ^ (o - o') =
      2 ^ (o + n - o') := by
  rw [List.sum_toFinset _ (nodup_upperHalves a o n)]
  induction n with
  | zero => simp [upperHalves]
  | succ n ih =>
    have hlast : upperHalves u a o (n + 1) = upperHalves u a o n ++ [upperHalf u a (o + n)] := by
      simp [upperHalves, List.range'_concat]
    have hpow : 2 ^ (o + (n + 1) - o') = 2 ^ (o + n - o') + 2 ^ (o + n - o') := by
      rw [show o + (n + 1) - o' = o + n - o' + 1 by omega, pow_succ]; omega
    have horder : (upperHalf u a (o + n)).order = o + n := rfl
    rw [hlast, List.map_append, List.sum_append, List.map_singleton, List.sum_singleton, hpow,
      horder]
    omega

/-- **What a request costs**, counted in blocks of an order that is no larger. -/
theorem Take.capacity (hu : 0 < u) (hF : Pool u F) (hT : Take u F o b F') {o' : ℕ}
    (ho' : o' ≤ o) : capacity F' o' + 2 ^ (o - o') = capacity F o' := by
  obtain ⟨c, hc, ho, rfl, rfl⟩ := hT
  obtain ⟨-, hunion⟩ := tiles_cut (u := u) ho
  have hdisj : Disjoint (F.erase c) (upperHalves u c.base o (c.order - o)).toFinset := by
    refine Finset.disjoint_left.mpr fun d hd hd' ↦ ?_
    have hx := d.base_mem_span hu
    refine Set.disjoint_left.mp (hF.disjoint c hc d (Finset.mem_of_mem_erase hd)
      (Finset.ne_of_mem_erase hd).symm) ?_ hx
    exact (hunion _).mpr ⟨d, List.mem_cons_of_mem _ (List.mem_toFinset.mp hd'), hx⟩
  have hall : ((upperHalves u c.base o (c.order - o)).toFinset.filter fun d ↦ o' ≤ d.order) =
      (upperHalves u c.base o (c.order - o)).toFinset := by
    refine Finset.filter_true_of_mem fun d hd ↦ ?_
    obtain ⟨j, hj, -, rfl⟩ := mem_upperHalves.mp (List.mem_toFinset.mp hd)
    exact ho'.trans hj
  have hcut := sum_upperHalves (u := u) (a := c.base) (n := c.order - o) ho'
  rw [Nat.add_sub_cancel' ho] at hcut
  have hrest := Finset.sum_erase_add (F.filter fun d ↦ o' ≤ d.order) (fun d ↦ 2 ^ (d.order - o'))
    (Finset.mem_filter.mpr ⟨hc, ho'.trans ho⟩)
  rw [Buddy.capacity, Buddy.capacity, Finset.filter_union, hall,
    Finset.sum_union (hdisj.mono_left (Finset.filter_subset _ _)), Finset.filter_erase, ← hrest]
  omega

theorem exists_of_capacity_pos (h : 0 < capacity F o) : ∃ c ∈ F, o ≤ c.order := by
  obtain ⟨c, hc, -⟩ := Finset.exists_ne_zero_of_sum_ne_zero h.ne'
  exact ⟨c, (Finset.mem_filter.mp hc).1, (Finset.mem_filter.mp hc).2⟩

/-! ## Many requests -/

/-- How many blocks of order `o` the requests `os` that are no smaller add up to. -/
def demand (os : List ℕ) (o : ℕ) : ℕ := ((os.filter (o ≤ ·)).map fun o' ↦ 2 ^ (o' - o)).sum

/-- At no order does the demand exceed the capacity. -/
def Enough (F : Finset Block) (os : List ℕ) : Prop := ∀ o ∈ os, demand os o ≤ capacity F o

/-- Blocks of the orders `os` that do not overlap can be placed inside the blocks of `F`. -/
def Fits (u : ℕ) (F : Finset Block) (os : List ℕ) : Prop :=
  ∃ bs : List Block, bs.map Block.order = os ∧
    (bs.Pairwise fun b c ↦ Disjoint (b.span u) (c.span u)) ∧
    ∀ b ∈ bs, ∃ c ∈ F, b.span u ⊆ c.span u

theorem demand_cons_of_le {o o' : ℕ} (os : List ℕ) (h : o' ≤ o) :
    demand (o :: os) o' = 2 ^ (o - o') + demand os o' := by
  simp [demand, h]

/-- A block inside another is no larger. -/
theorem order_le_of_span_subset (hu : 0 < u) {b c : Block} (h : b.span u ⊆ c.span u) :
    b.order ≤ c.order := by
  have hpos : 0 < u * 2 ^ b.order := Nat.mul_pos hu (Nat.two_pow_pos _)
  have h1 := h (b.base_mem_span hu)
  have h2 : b.base + u * 2 ^ b.order - 1 ∈ c.span u := h (Block.mem_span.mpr (by omega))
  rw [Block.mem_span] at h1 h2
  have hle : u * 2 ^ b.order ≤ u * 2 ^ c.order := by omega
  exact (Nat.pow_le_pow_iff_right (by omega)).mp (Nat.le_of_mul_le_mul_left hle hu)

/-- The addresses of a block, as a finite set. -/
def Block.addrs (u : ℕ) (b : Block) : Finset ℕ := Finset.Ico b.base (b.base + b.size u)

theorem Block.coe_addrs (b : Block) : (b.addrs u : Set ℕ) = b.span u := by
  simp [Block.addrs, Block.span]

theorem Block.card_addrs (b : Block) : (b.addrs u).card = u * 2 ^ b.order := by
  simp [Block.addrs, Block.size]

/-- Blocks that do not overlap and lie in a finite set have no more addresses than it. -/
theorem sum_size_le_card {bs : List Block}
    (hbs : bs.Pairwise fun b c ↦ Disjoint (b.span u) (c.span u)) {S : Finset ℕ}
    (hS : ∀ b ∈ bs, b.addrs u ⊆ S) : (bs.map fun b ↦ u * 2 ^ b.order).sum ≤ S.card := by
  induction bs generalizing S with
  | nil => simp
  | cons b bs ih =>
    rw [List.pairwise_cons] at hbs
    -- the other blocks lie in what `b` leaves of the set
    have hrest : ∀ c ∈ bs, c.addrs u ⊆ S \ b.addrs u := by
      intro c hc
      refine Finset.subset_sdiff.mpr ⟨hS c (List.mem_cons_of_mem _ hc), ?_⟩
      rw [← Finset.disjoint_coe, Block.coe_addrs, Block.coe_addrs]
      exact (hbs.1 c hc).symm
    have hle := ih hbs.2 hrest
    have hb := Finset.card_sdiff_add_card_eq_card (hS b List.mem_cons_self)
    rw [Block.card_addrs] at hb
    rw [List.map_cons, List.sum_cons]
    omega

/-- **Requests that fit do not exceed the capacity**, at any order. -/
theorem demand_le_capacity (hu : 0 < u) {os : List ℕ} (h : Fits u F os) (o : ℕ) :
    demand os o ≤ capacity F o := by
  obtain ⟨bs, rfl, hbs, hsub⟩ := h
  -- both sides, counted in units
  have hunits : ∀ k, o ≤ k → u * 2 ^ k = u * 2 ^ o * 2 ^ (k - o) := fun k hk ↦ by
    rw [Nat.mul_assoc, ← pow_add, Nat.add_sub_cancel' hk]
  have hdemand : ((bs.filter (o ≤ ·.order)).map fun b ↦ u * 2 ^ b.order).sum =
      u * 2 ^ o * demand (bs.map Block.order) o := by
    rw [demand, List.filter_map, List.map_map, ← List.sum_map_mul_left]
    exact congrArg List.sum (List.map_congr_left fun b hb ↦
      hunits b.order (by simpa using (List.mem_filter.mp hb).2))
  have hcapacity : ((F.filter (o ≤ ·.order)).biUnion (Block.addrs u)).card ≤
      u * 2 ^ o * capacity F o := by
    refine Finset.card_biUnion_le.trans (le_of_eq ?_)
    rw [capacity, Finset.mul_sum]
    refine Finset.sum_congr rfl fun c hc ↦ ?_
    rw [Block.card_addrs, hunits c.order (Finset.mem_filter.mp hc).2]
  have hle := sum_size_le_card (S := (F.filter (o ≤ ·.order)).biUnion (Block.addrs u))
    (hbs.filter (o ≤ ·.order)) fun b hb ↦ ?_
  · rw [hdemand] at hle
    exact Nat.le_of_mul_le_mul_left (hle.trans hcapacity) (Nat.mul_pos hu (Nat.two_pow_pos _))
  · -- a block of order at least `o` lies in one that is no smaller
    obtain ⟨hb, ho⟩ := List.mem_filter.mp hb
    obtain ⟨c, hc, hbc⟩ := hsub b hb
    have hoc : o ≤ c.order := (by simpa using ho : o ≤ b.order).trans
      (order_le_of_span_subset hu hbc)
    intro x hx
    refine Finset.mem_biUnion.mpr ⟨c, Finset.mem_filter.mpr ⟨hc, hoc⟩, ?_⟩
    rw [← Finset.mem_coe, Block.coe_addrs] at hx ⊢
    exact hbc hx

/-- When the first request is the largest, enough for all of them leaves a block to cut it from. -/
theorem Enough.exists_le {os : List ℕ} (h : Enough F (o :: os)) : ∃ c ∈ F, o ≤ c.order := by
  refine exists_of_capacity_pos (lt_of_lt_of_le ?_ (h o List.mem_cons_self))
  rw [demand_cons_of_le os (le_refl o), Nat.sub_self]
  omega

/-- ... and what is left is enough for the others. -/
theorem Enough.tail (hu : 0 < u) (hF : Pool u F) {os : List ℕ} (h : Enough F (o :: os))
    (hos : ∀ o' ∈ os, o' ≤ o) (hT : Take u F o b F') : Enough F' os := by
  intro o' ho'
  have hle := h o' (List.mem_cons_of_mem _ ho')
  rw [demand_cons_of_le os (hos o' ho'), ← hT.capacity hu hF (hos o' ho')] at hle
  omega

end Buddy

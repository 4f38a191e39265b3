import Mathlib

/-!
# Intrusive doubly linked lists

An *intrusive* list keeps its links inside the objects it links: a node is an address, and the
store maps every address to the pair of links found there.  `Heap ν` is that store, for an
arbitrary type `ν` of addresses, with `none` for the null pointer.

* `Chain h a l` says that walking `next` from `a` visits exactly the nodes of `l`, in order, ends
  at null, and that `prev` leads back the way `next` came.
* `Lists h head L` says this of a whole family of lists at once: one per index, each hanging off
  its own head, sharing no node.
* `Heap.unlink` and `Heap.linkAfter` are the two textbook operations, and `Lists.unlink`,
  `Lists.linkHead` say what they do to the family.
* `Walk h a l` keeps of a chain what following `next` can see, for stores whose `prev` links may be
  wrong.
* `LeadsOutside h A x` says that the links of `x` lead to no node of `A`, so that unlinking `x`
  leaves these alone.
* `Rows h S` is about lists that have no heads, whose first nodes are nodes like the others.
  `Rows.linkAfter` and `Rows.unlink` say what the two operations do to them anywhere in a list.
* `Lists.unlink_stale` is about a node that is *not* on a list any more but still carries the
  links it had when it was taken off the front of one: unlinking it again puts that list back to
  what followed the node then.
* `Calm h head L I xs` says that the links of the nodes `xs`, of which some are on the lists, do no
  harm when these are unlinked in turn.  By `Lists.unlinkAll` the lists then lose just those nodes.

Nothing about a chain depends on links outside it, and `Chain.congr` is the one place where that
is said; `Chain.next_eq` and `Chain.prev_eq` are its converse.
-/

set_option autoImplicit false

namespace Intrusive

universe u v

/-- The two links of a node. -/
@[ext] structure Link (ν : Type u) where
  /-- The node before this one. -/
  prev : Option ν
  /-- The node after this one. -/
  next : Option ν
deriving DecidableEq

/-- The links of a node that was never on a list. -/
def Link.null {ν : Type u} : Link ν := ⟨none, none⟩

/-- A store of links. -/
abbrev Heap (ν : Type u) := ν → Link ν

variable {ν : Type u} {ι : Type v} [DecidableEq ν]

/-! ## Writing one link -/

/-- Write the `next` link of `a`. -/
def Heap.setNext (h : Heap ν) (a : ν) (x : Option ν) : Heap ν :=
  fun b ↦ if b = a then { h b with next := x } else h b

/-- Write the `prev` link of `a`. -/
def Heap.setPrev (h : Heap ν) (a : ν) (x : Option ν) : Heap ν :=
  fun b ↦ if b = a then { h b with prev := x } else h b

@[simp] theorem Heap.setNext_next (h : Heap ν) (a : ν) (x : Option ν) (b : ν) :
    (h.setNext a x b).next = if b = a then x else (h b).next := by
  rw [Heap.setNext]; split <;> rfl

@[simp] theorem Heap.setNext_prev (h : Heap ν) (a : ν) (x : Option ν) (b : ν) :
    (h.setNext a x b).prev = (h b).prev := by
  rw [Heap.setNext]; split <;> rfl

@[simp] theorem Heap.setPrev_prev (h : Heap ν) (a : ν) (x : Option ν) (b : ν) :
    (h.setPrev a x b).prev = if b = a then x else (h b).prev := by
  rw [Heap.setPrev]; split <;> rfl

@[simp] theorem Heap.setPrev_next (h : Heap ν) (a : ν) (x : Option ν) (b : ν) :
    (h.setPrev a x b).next = (h b).next := by
  rw [Heap.setPrev]; split <;> rfl

/-- Write the `next` link of `a`, unless `a` is null. -/
def Heap.setNext? (h : Heap ν) (a x : Option ν) : Heap ν :=
  match a with
  | some a => h.setNext a x
  | none => h

/-- Write the `prev` link of `a`, unless `a` is null. -/
def Heap.setPrev? (h : Heap ν) (a x : Option ν) : Heap ν :=
  match a with
  | some a => h.setPrev a x
  | none => h

@[simp] theorem Heap.setNext?_next (h : Heap ν) (a x : Option ν) (b : ν) :
    (h.setNext? a x b).next = if a = some b then x else (h b).next := by
  cases a with
  | none => simp [Heap.setNext?]
  | some a => simp [Heap.setNext?, eq_comm]

@[simp] theorem Heap.setNext?_prev (h : Heap ν) (a x : Option ν) (b : ν) :
    (h.setNext? a x b).prev = (h b).prev := by
  cases a <;> simp [Heap.setNext?]

@[simp] theorem Heap.setPrev?_prev (h : Heap ν) (a x : Option ν) (b : ν) :
    (h.setPrev? a x b).prev = if a = some b then x else (h b).prev := by
  cases a with
  | none => simp [Heap.setPrev?]
  | some a => simp [Heap.setPrev?, eq_comm]

@[simp] theorem Heap.setPrev?_next (h : Heap ν) (a x : Option ν) (b : ν) :
    (h.setPrev? a x b).next = (h b).next := by
  cases a <;> simp [Heap.setPrev?]

/-! ## The two operations -/

/-- Take `x` out from between its neighbours.  The links of `x` itself stay as they are. -/
def Heap.unlink (h : Heap ν) (x : ν) : Heap ν :=
  (h.setNext? (h x).prev (h x).next).setPrev? (h x).next (h x).prev

/-- Put `x` between `a` and whatever follows `a`. -/
def Heap.linkAfter (h : Heap ν) (a x : ν) : Heap ν :=
  (((h.setPrev x (some a)).setNext x (h a).next).setPrev? (h a).next (some x)).setNext a (some x)

theorem Heap.unlink_next (h : Heap ν) (x b : ν) :
    (h.unlink x b).next = if (h x).prev = some b then (h x).next else (h b).next := by
  simp [Heap.unlink]

theorem Heap.unlink_prev (h : Heap ν) (x b : ν) :
    (h.unlink x b).prev = if (h x).next = some b then (h x).prev else (h b).prev := by
  simp [Heap.unlink]

theorem Heap.linkAfter_next (h : Heap ν) (a x b : ν) :
    (h.linkAfter a x b).next =
      if b = a then some x else if b = x then (h a).next else (h b).next := by
  simp [Heap.linkAfter]

theorem Heap.linkAfter_prev (h : Heap ν) (a x b : ν) :
    (h.linkAfter a x b).prev =
      if (h a).next = some b then some x else if b = x then some a else (h b).prev := by
  simp [Heap.linkAfter]

/-! ## One list -/

/-- Walking `next` from `a` visits exactly `l` and ends at null, and `prev` mirrors `next`. -/
def Chain (h : Heap ν) : ν → List ν → Prop
  | a, [] => (h a).next = none
  | a, b :: l => (h a).next = some b ∧ (h b).prev = some a ∧ Chain h b l

omit [DecidableEq ν] in
/-- **A chain only depends on the links it walks over.** -/
theorem Chain.congr {h h' : Heap ν} {a : ν} {l : List ν} (hc : Chain h a l)
    (hn : ∀ b ∈ a :: l, (h' b).next = (h b).next) (hp : ∀ b ∈ l, (h' b).prev = (h b).prev) :
    Chain h' a l := by
  induction l generalizing a with
  | nil => exact (hn a (by simp)).trans hc
  | cons b l ih =>
    obtain ⟨h1, h2, h3⟩ := hc
    refine ⟨(hn a (by simp)).trans h1, (hp b (by simp)).trans h2, ih h3 ?_ ?_⟩
    · intro c hcm; exact hn c (List.mem_cons_of_mem _ hcm)
    · intro c hcm; exact hp c (List.mem_cons_of_mem _ hcm)

omit [DecidableEq ν] in
/-- Two stores in which the same chain hangs off `a` agree on the `next` links of it. -/
theorem Chain.next_eq {h h' : Heap ν} {a : ν} {l : List ν} (hc : Chain h a l)
    (hc' : Chain h' a l) : ∀ b ∈ a :: l, (h' b).next = (h b).next := by
  induction l generalizing a with
  | nil => intro b hb; rw [List.mem_singleton.mp hb, show (h a).next = none from hc]; exact hc'
  | cons c l ih =>
    intro b hb
    rcases List.mem_cons.mp hb with rfl | hb
    · rw [hc.1, hc'.1]
    · exact ih hc.2.2 hc'.2.2 b hb

omit [DecidableEq ν] in
/-- Two stores in which the same chain hangs off `a` agree on the `prev` links of it. -/
theorem Chain.prev_eq {h h' : Heap ν} {a : ν} {l : List ν} (hc : Chain h a l)
    (hc' : Chain h' a l) : ∀ b ∈ l, (h' b).prev = (h b).prev := by
  induction l generalizing a with
  | nil => simp
  | cons c l ih =>
    intro b hb
    rcases List.mem_cons.mp hb with rfl | hb
    · rw [hc.2.1, hc'.2.1]
    · exact ih hc.2.2 hc'.2.2 b hb

omit [DecidableEq ν] in
theorem Chain.next_head {h : Heap ν} {a : ν} {l : List ν} (hc : Chain h a l) :
    (h a).next = l.head? := by
  cases l with
  | nil => exact hc
  | cons b l => exact hc.1

omit [DecidableEq ν] in
/-- Every node of a chain has a node before it. -/
theorem Chain.prev_ne_none {h : Heap ν} {a : ν} {l : List ν} (hc : Chain h a l) {b : ν}
    (hb : b ∈ l) : (h b).prev ≠ none := by
  induction l generalizing a with
  | nil => simp at hb
  | cons c l ih =>
    rcases List.mem_cons.mp hb with rfl | hb
    · rw [hc.2.1]; simp
    · exact ih hc.2.2 hb

omit [DecidableEq ν] in
/-- In the middle of a chain, `next` leads to what stands after. -/
theorem Chain.next_mid {h : Heap ν} {a x : ν} {l m : List ν} (hc : Chain h a (l ++ x :: m)) :
    (h x).next = m.head? := by
  induction l generalizing a with
  | nil => exact hc.2.2.next_head
  | cons b l ih => exact ih hc.2.2

omit [DecidableEq ν] in
/-- In the middle of a chain, `prev` leads to something that stands before. -/
theorem Chain.prev_mid {h : Heap ν} {a x : ν} {l m : List ν} (hc : Chain h a (l ++ x :: m)) :
    ∃ p ∈ a :: l, (h x).prev = some p := by
  induction l generalizing a with
  | nil => exact ⟨a, by simp, hc.2.1⟩
  | cons b l ih =>
    obtain ⟨p, hp, hpx⟩ := ih hc.2.2
    exact ⟨p, List.mem_cons_of_mem _ hp, hpx⟩

omit [DecidableEq ν] in
/-- What stands before a node of a chain leads to it. -/
theorem Chain.next_of_prev {h : Heap ν} {a x p : ν} {l m : List ν} (hc : Chain h a (l ++ x :: m))
    (hp : (h x).prev = some p) : (h p).next = some x := by
  induction l generalizing a with
  | nil =>
    obtain ⟨h1, h2, -⟩ := hc
    rw [hp, Option.some.injEq] at h2
    rw [h2, h1]
  | cons b l ih => exact ih hc.2.2

omit [DecidableEq ν] in
/-- What stands behind a node of a chain is a chain of its own. -/
theorem Chain.drop {h : Heap ν} {a x : ν} {l m : List ν} (hc : Chain h a (l ++ x :: m)) :
    Chain h x m := by
  induction l generalizing a with
  | nil => exact hc.2.2
  | cons b l ih => exact ih hc.2.2

/-- Unlinking an `x` whose links lead to `a` and to the front of `m` joins the two. -/
theorem Chain.unlink_join {h : Heap ν} {a x : ν} {m : List ν} (hxp : (h x).prev = some a)
    (hxn : (h x).next = m.head?) (hm : ∀ c m', m = c :: m' → Chain h c m')
    (hnd : (a :: m).Nodup) : Chain (h.unlink x) a m := by
  cases m with
  | nil => rw [Chain, Heap.unlink_next, hxp, if_pos rfl]; exact hxn
  | cons c m =>
    simp only [List.nodup_cons, List.mem_cons, not_or] at hnd
    obtain ⟨⟨hac, ham⟩, hcm, -⟩ := hnd
    rw [List.head?_cons] at hxn
    refine ⟨?_, ?_, (hm c m rfl).congr ?_ ?_⟩
    · rw [Heap.unlink_next, hxp, if_pos rfl, hxn]
    · rw [Heap.unlink_prev, hxn, if_pos rfl, hxp]
    · intro b hb
      rw [Heap.unlink_next, hxp, if_neg]
      rintro hab
      rcases List.mem_cons.mp hb with rfl | hb
      · exact hac (Option.some.inj hab)
      · exact ham (Option.some.inj hab ▸ hb)
    · intro b hb
      rw [Heap.unlink_prev, hxn, if_neg]
      intro hcb
      exact hcm (Option.some.inj hcb ▸ hb)

/-- Unlinking the `x` in the middle of a chain leaves the chain without it. -/
theorem Chain.unlink {h : Heap ν} {a x : ν} {l m : List ν} (hc : Chain h a (l ++ x :: m))
    (hnd : (a :: (l ++ x :: m)).Nodup) : Chain (h.unlink x) a (l ++ m) := by
  induction l generalizing a with
  | nil =>
    -- `a` is the node before `x`: it is the one whose `next` is rewritten
    rw [List.nil_append] at hc hnd ⊢
    refine Chain.unlink_join hc.2.1 hc.2.2.next_head ?_ (hnd.sublist ?_)
    · rintro c m' rfl; exact hc.2.2.2.2
    · exact List.Sublist.cons_cons _ (List.sublist_cons_self x m)
  | cons b l ih =>
    rw [List.cons_append] at hc hnd ⊢
    obtain ⟨h1, h2, h3⟩ := hc
    obtain ⟨haMem, hnd'⟩ := List.nodup_cons.mp hnd
    refine ⟨?_, ?_, ih h3 hnd'⟩
    · -- the node before `x` stands after `a`
      obtain ⟨p, hp, hpx⟩ := h3.prev_mid
      rw [Heap.unlink_next, if_neg, h1]
      intro hxa
      rw [hxa, Option.some.injEq] at hpx
      subst hpx
      refine haMem ?_
      rcases List.mem_cons.mp hp with rfl | hp
      · simp
      · simp [hp]
    · -- the node after `x` stands after `b`
      rw [Heap.unlink_prev, if_neg, h2]
      intro hxb
      rw [h3.next_mid] at hxb
      exact (List.nodup_cons.mp hnd').1 (by simp [List.mem_of_head? hxb])

/-- Linking a fresh `x` behind the start of a chain puts it in front. -/
theorem Chain.linkAfter {h : Heap ν} {a x : ν} {l : List ν} (hc : Chain h a l)
    (hnd : (a :: l).Nodup) (hxa : x ≠ a) (hxl : x ∉ l) :
    Chain (h.linkAfter a x) a (x :: l) := by
  have han := hc.next_head
  have hanx : (h a).next ≠ some x := by
    rw [han]; exact fun hx ↦ hxl (List.mem_of_head? hx)
  refine ⟨by rw [Heap.linkAfter_next, if_pos rfl], ?_, ?_⟩
  · rw [Heap.linkAfter_prev, if_neg hanx, if_pos rfl]
  cases l with
  | nil => rw [Chain, Heap.linkAfter_next, if_neg hxa, if_pos rfl]; exact hc
  | cons c l =>
    simp only [List.nodup_cons, List.mem_cons, not_or] at hnd hxl
    obtain ⟨⟨hac, hal⟩, hcl, -⟩ := hnd
    refine ⟨?_, ?_, hc.2.2.congr ?_ ?_⟩
    · rw [Heap.linkAfter_next, if_neg hxa, if_pos rfl, hc.1]
    · rw [Heap.linkAfter_prev, if_pos hc.1]
    · intro b hb
      have hba : b ≠ a := by
        rintro rfl
        rcases List.mem_cons.mp hb with hb | hb
        · exact hac hb
        · exact hal hb
      have hbx : b ≠ x := by
        rintro rfl
        rcases List.mem_cons.mp hb with hb | hb
        · exact hxl.1 hb
        · exact hxl.2 hb
      rw [Heap.linkAfter_next, if_neg hba, if_neg hbx]
    · intro b hb
      have hbx : b ≠ x := fun hbx ↦ hxl.2 (hbx ▸ hb)
      rw [Heap.linkAfter_prev, hc.1, if_neg, if_neg hbx]
      intro hcb
      exact hcl (Option.some.inj hcb ▸ hb)

/-! ## Walking

`next` alone, without asking where `prev` leads. -/

/-- Walking `next` from `a` visits exactly `l` and ends at null. -/
def Walk (h : Heap ν) : ν → List ν → Prop
  | a, [] => (h a).next = none
  | a, b :: l => (h a).next = some b ∧ Walk h b l

omit [DecidableEq ν] in
theorem Chain.walk {h : Heap ν} {a : ν} {l : List ν} (hc : Chain h a l) : Walk h a l := by
  induction l generalizing a with
  | nil => exact hc
  | cons b l ih => exact ⟨hc.1, ih hc.2.2⟩

omit [DecidableEq ν] in
theorem Walk.congr {h h' : Heap ν} {a : ν} {l : List ν} (hw : Walk h a l)
    (hn : ∀ b ∈ a :: l, (h' b).next = (h b).next) : Walk h' a l := by
  induction l generalizing a with
  | nil => exact (hn a (by simp)).trans hw
  | cons b l ih =>
    exact ⟨(hn a (by simp)).trans hw.1, ih hw.2 fun c hc ↦ hn c (List.mem_cons_of_mem _ hc)⟩

omit [DecidableEq ν] in
/-- There is only one way to walk. -/
theorem Walk.unique {h : Heap ν} {a : ν} {l l' : List ν} (hw : Walk h a l) (hw' : Walk h a l') :
    l = l' := by
  induction l generalizing a l' with
  | nil =>
    cases l' with
    | nil => rfl
    | cons b l' => exact absurd (hw.symm.trans hw'.1) (by simp)
  | cons b l ih =>
    cases l' with
    | nil => exact absurd (hw.1.symm.trans hw') (by simp)
    | cons b' l' =>
      obtain rfl : b = b' := Option.some.inj (hw.1.symm.trans hw'.1)
      rw [ih hw.2 hw'.2]

omit [DecidableEq ν] in
theorem Walk.of_next {h : Heap ν} {a b : ν} {l : List ν} (hw : Walk h a l)
    (hb : (h a).next = some b) : ∃ l', l = b :: l' ∧ Walk h b l' := by
  cases l with
  | nil => exact absurd (hb.symm.trans hw) (by simp)
  | cons c l =>
    obtain rfl : b = c := Option.some.inj (hb.symm.trans hw.1)
    exact ⟨l, rfl, hw.2⟩

omit [DecidableEq ν] in
/-- From a node on the way, the rest of the way is walked. -/
theorem Walk.exists_of_mem {h : Heap ν} {a b : ν} {l : List ν} (hw : Walk h a l) (hb : b ∈ l) :
    ∃ l', Walk h b l' ∧ l'.length < l.length := by
  induction l generalizing a with
  | nil => simp at hb
  | cons c l ih =>
    rcases List.mem_cons.mp hb with rfl | hb
    · exact ⟨l, hw.2, by simp⟩
    · obtain ⟨l', hl', hlen⟩ := ih hw.2 hb
      exact ⟨l', hl', by rw [List.length_cons]; omega⟩

omit [DecidableEq ν] in
/-- A walk that ends comes to no node twice. -/
theorem Walk.nodup {h : Heap ν} {a : ν} {l : List ν} (hw : Walk h a l) : (a :: l).Nodup := by
  induction l generalizing a with
  | nil => simp
  | cons b l ih =>
    refine List.nodup_cons.mpr ⟨fun ha ↦ ?_, ih hw.2⟩
    obtain ⟨l', hl', hlen⟩ := hw.exists_of_mem ha
    rw [hl'.unique hw] at hlen
    exact absurd hlen (lt_irrefl _)

/-! ## Nodes apart from the lists -/

/-- The links of `x` lead to no node of `A`. -/
def LeadsOutside (h : Heap ν) (A : Set ν) (x : ν) : Prop :=
  ∀ y ∈ A, (h x).prev ≠ some y ∧ (h x).next ≠ some y

omit [DecidableEq ν] in
theorem leadsOutside_of_null {h : Heap ν} {x : ν} (hx : h x = Link.null) (A : Set ν) :
    LeadsOutside h A x := by
  intro y _
  rw [hx, Link.null]
  simp

/-- The links of `x` lead to `y`. -/
def LinksTo (h : Heap ν) (x y : ν) : Prop := (h x).prev = some y ∨ (h x).next = some y

/-- Those neighbours of `x` that are in `A` are joined already, past `x`. -/
def Harmless (h : Heap ν) (A : Set ν) (x : ν) : Prop :=
  ∀ y ∈ A, ((h x).prev = some y → (h y).next = (h x).next) ∧
    ((h x).next = some y → (h y).prev = (h x).prev)

section Outside

variable {h : Heap ν} {A B : Set ν} {x y z : ν}

omit [DecidableEq ν] in
theorem LeadsOutside.not_linksTo (hx : LeadsOutside h A x) (hy : y ∈ A) : ¬ LinksTo h x y :=
  not_or.mpr (hx y hy)

omit [DecidableEq ν] in
theorem LeadsOutside.mono (hx : LeadsOutside h A x) (hB : B ⊆ A) : LeadsOutside h B x :=
  fun y hy ↦ hx y (hB hy)

omit [DecidableEq ν] in
theorem LeadsOutside.harmless (hx : LeadsOutside h A x) : Harmless h A x :=
  fun y hy ↦ ⟨fun hp ↦ absurd hp (hx y hy).1, fun hn ↦ absurd hn (hx y hy).2⟩

omit [DecidableEq ν] in
theorem Harmless.mono (hx : Harmless h A x) (hB : B ⊆ A) : Harmless h B x :=
  fun y hy ↦ hx y (hB hy)

omit [DecidableEq ν] in
theorem linksTo_congr {h' : Heap ν} (hx : h' x = h x) : LinksTo h' x y ↔ LinksTo h x y := by
  rw [LinksTo, LinksTo, hx]

omit [DecidableEq ν] in
theorem LeadsOutside.congr {h' : Heap ν} (hx : LeadsOutside h A x) (hsame : h' x = h x) :
    LeadsOutside h' A x := by
  intro y hy
  rw [hsame]
  exact hx y hy

theorem Heap.unlink_of_not_linksTo (hxy : ¬ LinksTo h x y) : h.unlink x y = h y := by
  obtain ⟨hp, hn⟩ := not_or.mp hxy
  have h1 := Heap.unlink_next h x y
  have h2 := Heap.unlink_prev h x y
  rw [if_neg hp] at h1
  rw [if_neg hn] at h2
  exact Link.ext h2 h1

/-- Unlinking a harmless node changes nothing in `A`. -/
theorem Harmless.unlink_apply (hx : Harmless h A x) (hy : y ∈ A) : h.unlink x y = h y := by
  refine Link.ext ?_ ?_
  · rw [Heap.unlink_prev]
    split
    · rename_i hn
      exact ((hx y hy).2 hn).symm
    · rfl
  · rw [Heap.unlink_next]
    split
    · rename_i hp
      exact ((hx y hy).1 hp).symm
    · rfl

/-- Only what `x` led to can be led to once `x` is unlinked, and what was led to before. -/
theorem LinksTo.of_unlink (hzy : LinksTo (h.unlink x) z y) : LinksTo h z y ∨ LinksTo h x y := by
  rw [LinksTo, Heap.unlink_prev, Heap.unlink_next] at hzy
  rcases hzy with hp | hn
  · split at hp
    · exact Or.inr (Or.inl hp)
    · exact Or.inl (Or.inl hp)
  · split at hn
    · exact Or.inr (Or.inr hn)
    · exact Or.inl (Or.inr hn)

/-- Unlinking a node that does not lead into `A` makes none that does. -/
theorem LeadsOutside.unlink (hz : LeadsOutside h A z) (hx : LeadsOutside h A x) :
    LeadsOutside (h.unlink x) A z := by
  intro y hy
  have hnot : ¬ LinksTo (h.unlink x) z y :=
    fun hzy ↦ hzy.of_unlink.elim (hz.not_linksTo hy) (hx.not_linksTo hy)
  exact not_or.mp hnot

end Outside

/-! ## A family of lists -/

/-- The lists `L i` hang off the heads `head i` and share no node. -/
structure Lists (h : Heap ν) (head : ι → ν) (L : ι → List ν) : Prop where
  /-- Each list is a proper one. -/
  chain : ∀ i, Chain h (head i) (L i)
  /-- No list visits a node twice. -/
  nodup : ∀ i, (L i).Nodup
  /-- A node is on one list at most. -/
  unique : ∀ i j x, x ∈ L i → x ∈ L j → i = j
  /-- No head is on a list. -/
  head_notMem : ∀ i j, head i ∉ L j
  /-- Different lists hang off different heads. -/
  head_inj : Function.Injective head

variable {h h' : Heap ν} {head : ι → ν} {L : ι → List ν}

omit [DecidableEq ν] in
/-- A store that agrees with `h` on the heads and on every listed node carries the same lists. -/
theorem Lists.congr (hL : Lists h head L) (hn : ∀ i, (h' (head i)).next = (h (head i)).next)
    (hx : ∀ i, ∀ x ∈ L i, h' x = h x) : Lists h' head L where
  chain i := by
    refine (hL.chain i).congr ?_ fun b hb ↦ by rw [hx i b hb]
    intro b hb
    rcases List.mem_cons.mp hb with rfl | hb
    · exact hn i
    · rw [hx i b hb]
  nodup := hL.nodup
  unique := hL.unique
  head_notMem := hL.head_notMem
  head_inj := hL.head_inj

omit [DecidableEq ν] in
theorem Lists.nodup_cons (hL : Lists h head L) (i : ι) : (head i :: L i).Nodup :=
  List.nodup_cons.mpr ⟨hL.head_notMem i i, hL.nodup i⟩

omit [DecidableEq ν] in
/-- What hangs off one head is not what hangs off another. -/
theorem Lists.ne_of_mem (hL : Lists h head L) {i j : ι} (hij : j ≠ i) {b c : ν}
    (hb : b ∈ head j :: L j) (hc : c ∈ head i :: L i) : c ≠ b := by
  rintro rfl
  rcases List.mem_cons.mp hb with hb | hb <;> rcases List.mem_cons.mp hc with hc | hc
  · exact hij (hL.head_inj (hb.symm.trans hc))
  · exact hL.head_notMem _ _ (hb ▸ hc)
  · exact hL.head_notMem _ _ (hc ▸ hb)
  · exact hij (hL.unique _ _ _ hb hc)

omit [DecidableEq ν] in
/-- What may be said of the lists once `L i` is replaced by a list `m` of its own nodes and of
nodes that were on no list. -/
theorem Lists.update [DecidableEq ι] (hL : Lists h head L) {i : ι} {m : List ν}
    (hc : Chain h' (head i) m) (hnd : m.Nodup)
    (hm : ∀ x ∈ m, x ∈ L i ∨ (∀ j, x ∉ L j) ∧ ∀ j, head j ≠ x)
    (hothers : ∀ j, j ≠ i → Chain h' (head j) (L j)) :
    Lists h' head (Function.update L i m) where
  chain j := by
    rcases eq_or_ne j i with rfl | hj
    · rwa [Function.update_self]
    · rw [Function.update_of_ne hj]; exact hothers j hj
  nodup j := by
    rcases eq_or_ne j i with rfl | hj
    · rwa [Function.update_self]
    · rw [Function.update_of_ne hj]; exact hL.nodup j
  unique j k x hxj hxk := by
    rcases eq_or_ne j i with rfl | hj <;> rcases eq_or_ne k j with hk | hk
    · exact hk.symm
    · rw [Function.update_self] at hxj
      rw [Function.update_of_ne hk] at hxk
      rcases hm x hxj with hx | ⟨hx, -⟩
      · exact hL.unique _ _ x hx hxk
      · exact absurd hxk (hx k)
    · exact hk.symm
    · rw [Function.update_of_ne hj] at hxj
      rcases eq_or_ne k i with rfl | hki
      · rw [Function.update_self] at hxk
        rcases hm x hxk with hx | ⟨hx, -⟩
        · exact hL.unique _ _ x hxj hx
        · exact absurd hxj (hx j)
      · rw [Function.update_of_ne hki] at hxk
        exact hL.unique _ _ x hxj hxk
  head_notMem j k hx := by
    rcases eq_or_ne k i with rfl | hk
    · rw [Function.update_self] at hx
      rcases hm _ hx with hx | ⟨-, hx⟩
      · exact hL.head_notMem _ _ hx
      · exact hx j rfl
    · rw [Function.update_of_ne hk] at hx
      exact hL.head_notMem _ _ hx
  head_inj := hL.head_inj

omit [DecidableEq ν] in
/-- What comes before a listed node is on the same list, or its head. -/
theorem Lists.prev_mem (hL : Lists h head L) {i : ι} {x p : ν} (hx : x ∈ L i)
    (hp : (h x).prev = some p) : p ∈ head i :: L i := by
  obtain ⟨l, m, hlm⟩ := List.append_of_mem hx
  have hc := hL.chain i
  rw [hlm] at hc ⊢
  obtain ⟨p', hp', hpx⟩ := hc.prev_mid
  rw [hp, Option.some.injEq] at hpx
  rw [hpx]
  rcases List.mem_cons.mp hp' with rfl | hp'
  · simp
  · simp [hp']

omit [DecidableEq ν] in
/-- What comes after a listed node is on the same list. -/
theorem Lists.next_mem (hL : Lists h head L) {i : ι} {x q : ν} (hx : x ∈ L i)
    (hq : (h x).next = some q) : q ∈ L i := by
  obtain ⟨l, m, hlm⟩ := List.append_of_mem hx
  have hc := hL.chain i
  rw [hlm] at hc ⊢
  rw [hc.next_mid] at hq
  simp [List.mem_of_head? hq]

omit [DecidableEq ν] in
/-- What comes before a listed node leads to it. -/
theorem Lists.next_of_prev (hL : Lists h head L) {i : ι} {x p : ν} (hx : x ∈ L i)
    (hp : (h x).prev = some p) : (h p).next = some x := by
  obtain ⟨l, m, hlm⟩ := List.append_of_mem hx
  have hc := hL.chain i
  rw [hlm] at hc
  exact hc.next_of_prev hp

omit [DecidableEq ν] in
/-- What comes after a listed node leads back to it. -/
theorem Lists.prev_of_next (hL : Lists h head L) {i : ι} {x q : ν} (hx : x ∈ L i)
    (hq : (h x).next = some q) : (h q).prev = some x := by
  obtain ⟨l, m, hlm⟩ := List.append_of_mem hx
  have hc := hL.chain i
  rw [hlm] at hc
  have hm := hc.next_mid
  rw [hq] at hm
  obtain ⟨m', rfl⟩ := List.head?_eq_some_iff.mp hm.symm
  exact hc.drop.2.1

/-- Unlinking a listed node leaves every node alone that is on no list and is no head. -/
theorem Lists.unlink_apply (hL : Lists h head L) {i : ι} {x b : ν} (hx : x ∈ L i)
    (hb : ∀ j, b ∉ head j :: L j) : h.unlink x b = h b := by
  have h1 := Heap.unlink_next h x b
  have h2 := Heap.unlink_prev h x b
  rw [if_neg fun hp ↦ hb i (hL.prev_mem hx hp)] at h1
  rw [if_neg fun hq ↦ hb i (List.mem_cons_of_mem _ (hL.next_mem hx hq))] at h2
  exact Link.ext h2 h1

/-- Rewriting links of one list, or of nodes that are on none, leaves the other lists alone. -/
theorem Lists.chain_unlink_of_ne (hL : Lists h head L) {i j : ι} (hij : j ≠ i) {x : ν}
    (hp : ∀ p, (h x).prev = some p → p ∈ head i :: L i)
    (hq : ∀ q, (h x).next = some q → q ∈ L i) : Chain (h.unlink x) (head j) (L j) := by
  refine (hL.chain j).congr ?_ ?_
  · intro b hb
    rw [Heap.unlink_next, if_neg]
    intro hxb
    exact hL.ne_of_mem hij hb (hp b hxb) rfl
  · intro b hb
    rw [Heap.unlink_prev, if_neg]
    intro hxb
    exact hL.ne_of_mem hij (List.mem_cons_of_mem _ hb) (List.mem_cons_of_mem _ (hq b hxb)) rfl

variable [DecidableEq ι]

/-- **Unlinking a listed node deletes it**, and changes no other list. -/
theorem Lists.unlink (hL : Lists h head L) {i : ι} {x : ν} (hx : x ∈ L i) :
    Lists (h.unlink x) head (Function.update L i ((L i).erase x)) := by
  obtain ⟨l, m, hlm⟩ := List.append_of_mem hx
  have hc := hL.chain i
  have hnd := hL.nodup_cons i
  rw [hlm] at hc hnd
  have hxl : x ∉ l := by
    have hnd' := (List.nodup_cons.mp hnd).2
    rw [List.nodup_append] at hnd'
    exact fun hxl ↦ hnd'.2.2 x hxl x (by simp) rfl
  have herase : (L i).erase x = l ++ m := by
    rw [hlm, List.erase_append_right _ hxl, List.erase_cons_head]
  refine hL.update ?_ ((hL.nodup i).erase x) ?_ ?_
  · rw [herase]; exact hc.unlink hnd
  · intro y hy; exact Or.inl (List.mem_of_mem_erase hy)
  · intro j hj
    exact hL.chain_unlink_of_ne hj (fun p ↦ hL.prev_mem hx) fun q ↦ hL.next_mem hx

/-- **Unlinking a node that was taken off the front of `L i` before** puts `L i` back to what
stood behind the node then: whatever was put in front of that since is dropped. -/
theorem Lists.unlink_stale (hL : Lists h head L) {i : ι} {x : ν} {l m : List ν}
    (hlm : L i = l ++ m) (hxp : (h x).prev = some (head i)) (hxn : (h x).next = m.head?) :
    Lists (h.unlink x) head (Function.update L i m) := by
  have hnd := hL.nodup i
  rw [hlm] at hnd
  have hmnd : m.Nodup := (List.nodup_append.mp hnd).2.1
  have hsub : ∀ y ∈ m, y ∈ L i := by intro y hy; rw [hlm]; simp [hy]
  have hhead : (head i :: m).Nodup :=
    List.nodup_cons.mpr ⟨fun hy ↦ hL.head_notMem _ _ (hsub _ hy), hmnd⟩
  refine hL.update ?_ hmnd (fun y hy ↦ Or.inl (hsub y hy)) ?_
  · refine Chain.unlink_join hxp hxn ?_ hhead
    rintro c m' rfl
    have hc := hL.chain i
    rw [hlm] at hc
    exact hc.drop
  · intro j hj
    refine hL.chain_unlink_of_ne hj ?_ ?_
    · intro p hp; rw [hxp, Option.some.injEq] at hp; simp [hp]
    · intro q hq; rw [hxn] at hq; exact hsub q (List.mem_of_head? hq)

/-- **Linking a fresh node behind a head inserts it at the front**, and changes no other list. -/
theorem Lists.linkHead (hL : Lists h head L) (i : ι) {x : ν} (hx : ∀ j, x ∉ L j)
    (hxh : ∀ j, head j ≠ x) :
    Lists (h.linkAfter (head i) x) head (Function.update L i (x :: L i)) := by
  refine hL.update ?_ ?_ ?_ ?_
  · exact (hL.chain i).linkAfter (hL.nodup_cons i) (hxh i).symm (hx i)
  · exact List.nodup_cons.mpr ⟨hx i, hL.nodup i⟩
  · intro y hy
    rcases List.mem_cons.mp hy with rfl | hy
    · exact Or.inr ⟨hx, hxh⟩
    · exact Or.inl hy
  · intro j hj
    have hbx : ∀ b ∈ head j :: L j, b ≠ x := by
      rintro b hb rfl
      rcases List.mem_cons.mp hb with hb | hb
      · exact hxh j hb.symm
      · exact hx j hb
    refine (hL.chain j).congr ?_ ?_
    · intro b hb
      have hbi : b ≠ head i := (hL.ne_of_mem hj hb (by simp)).symm
      rw [Heap.linkAfter_next, if_neg hbi, if_neg (hbx b hb)]
    · intro b hb
      have hb' : b ∈ head j :: L j := List.mem_cons_of_mem _ hb
      rw [Heap.linkAfter_prev, if_neg, if_neg (hbx b hb')]
      intro hib
      rw [(hL.chain i).next_head] at hib
      exact hL.ne_of_mem hj hb' (List.mem_cons_of_mem _ (List.mem_of_head? hib)) rfl

/-! ## Unlinking many nodes

Some of the nodes are on the lists; the others may carry links from an earlier time.  `Calm` is
about the links as they are before the first node is unlinked. -/

/-- The nodes that must not be touched: the heads, what is on the lists, and the nodes of `I`. -/
def Watched (head : ι → ν) (L : ι → List ν) (I : Set ν) : Set ν :=
  {y | (∃ i, y ∈ head i :: L i) ∨ y ∈ I}

/-- That `x` is unlinked first makes no difference to what unlinking `y` does to `A`.  A listed `y`
is joined out of its list in any case, and a `y` that does not lead into `A` does not begin to. -/
def Keeps (h : Heap ν) (L : ι → List ν) (A : Set ν) (x y : ν) : Prop :=
  (∃ i, y ∈ L i) ∨
    ((∃ i, x ∈ L i) ∧ (LeadsOutside h A y ∨ ¬ LinksTo h y x)) ∨
    ((∀ i, x ∉ L i) ∧ (LeadsOutside h A x ∧ LeadsOutside h A y ∨ ¬ LinksTo h x y))

/-- The links that the nodes `xs` are left with do no harm when these are unlinked in turn. -/
structure Calm (h : Heap ν) (head : ι → ν) (L : ι → List ν) (I : Set ν) (xs : List ν) : Prop where
  /-- A node that is on no list is harmless. -/
  harmless : ∀ x ∈ xs, (∃ i, x ∈ L i) ∨ Harmless h (Watched head L I) x
  /-- None of them is made harmful by one that is unlinked before it. -/
  keeps : xs.Pairwise (Keeps h L (Watched head L I))

section Calm

variable {I : Set ν} {xs : List ν} {x y z : ν}

omit [DecidableEq ι] in
/-- Erasing a node from the list it is on erases it from all of them. -/
theorem Lists.erase_eq_update [DecidableEq ι] (hL : Lists h head L) {i : ι} (hx : x ∈ L i) :
    (fun j ↦ (L j).erase x) = Function.update L i ((L i).erase x) := by
  funext j
  rcases eq_or_ne j i with rfl | hj
  · rw [Function.update_self]
  · rw [Function.update_of_ne hj, List.erase_of_not_mem fun hxj ↦ hj (hL.unique j i x hxj hx)]

omit [DecidableEq ι] in
theorem watched_erase (x : ν) : Watched head (fun i ↦ (L i).erase x) I ⊆ Watched head L I := by
  rintro y (⟨i, hy⟩ | hy)
  · refine Or.inl ⟨i, ?_⟩
    rcases List.mem_cons.mp hy with rfl | hy
    · exact List.mem_cons_self
    · exact List.mem_cons_of_mem _ (List.mem_of_mem_erase hy)
  · exact Or.inr hy

omit [DecidableEq ι] in
theorem exists_mem_erase (hyx : y ≠ x) (hy : ∃ i, y ∈ L i) : ∃ i, y ∈ (L i).erase x :=
  hy.imp fun _ hi ↦ (List.mem_erase_of_ne hyx).mpr hi

omit [DecidableEq ι] in
/-- Unlinking a listed node first leaves a harmless one harmless, unless it leads there. -/
theorem Lists.harmless_unlink (hL : Lists h head L) {i : ι} (hx : x ∈ L i) {A : Set ν}
    (hy : Harmless h A y) (hsame : h.unlink x y = h y) (hyx : ¬ LinksTo h y x) :
    Harmless (h.unlink x) A y := by
  intro z hz
  rw [hsame]
  constructor
  · intro hp
    rw [Heap.unlink_next, if_neg, (hy z hz).1 hp]
    intro hxz
    have hn := hL.next_of_prev hx hxz
    rw [(hy z hz).1 hp] at hn
    exact hyx (Or.inr hn)
  · intro hn
    rw [Heap.unlink_prev, if_neg, (hy z hz).2 hn]
    intro hxz
    have hp := hL.prev_of_next hx hxz
    rw [(hy z hz).2 hn] at hp
    exact hyx (Or.inl hp)

omit [DecidableEq ι] in
/-- Unlinking a listed node leaves the others calm. -/
theorem Calm.unlink_listed (hL : Lists h head L) (hheads : ∀ y ∈ xs, ∀ i, y ≠ head i) {i : ι}
    (hx : x ∈ L i) (hxs : x ∉ xs) (hcalm : Calm h head L I (x :: xs)) :
    Calm (h.unlink x) head (fun j ↦ (L j).erase x) I xs := by
  obtain ⟨hfirst, hrest⟩ := List.pairwise_cons.mp hcalm.keeps
  have hne : ∀ y ∈ xs, y ≠ x := by rintro y hy rfl; exact hxs hy
  have hsame : ∀ y ∈ xs, ¬ (∃ j, y ∈ L j) → h.unlink x y = h y := by
    intro y hy hnone
    refine hL.unlink_apply hx fun j hj ↦ ?_
    rcases List.mem_cons.mp hj with heq | hj
    · exact hheads y hy j heq
    · exact hnone ⟨j, hj⟩
  have hsub : Watched head (fun j ↦ (L j).erase x) I ⊆ Watched head L I := watched_erase x
  refine ⟨fun y hy ↦ ?_, hrest.imp_of_mem fun {y z} hy hz hyz ↦ ?_⟩
  · by_cases hlist : ∃ j, y ∈ L j
    · exact Or.inl (exists_mem_erase (hne y hy) hlist)
    · have hharm := (hcalm.harmless y (List.mem_cons_of_mem _ hy)).resolve_left hlist
      have hy' := hsame y hy hlist
      rcases (hfirst y hy).resolve_left hlist with ⟨-, hout | hlink⟩ | ⟨hnone, -⟩
      · exact Or.inr ((hout.congr hy').mono hsub).harmless
      · exact Or.inr ((hL.harmless_unlink hx hharm hy' hlink).mono hsub)
      · exact absurd hx (hnone i)
  · by_cases hlist : ∃ j, z ∈ L j
    · exact Or.inl (exists_mem_erase (hne z hz) hlist)
    · have hz' := hsame z hz hlist
      refine Or.inr ?_
      rcases hyz.resolve_left hlist with ⟨hy1, hout | hlink⟩ | ⟨hy1, hrel⟩
      · exact Or.inl ⟨exists_mem_erase (hne y hy) hy1, Or.inl ((hout.congr hz').mono hsub)⟩
      · exact Or.inl ⟨exists_mem_erase (hne y hy) hy1, Or.inr (by rwa [linksTo_congr hz'])⟩
      · have hy' := hsame y hy (by simpa using hy1)
        refine Or.inr ⟨fun j hj ↦ hy1 j (List.mem_of_mem_erase hj), ?_⟩
        rcases hrel with ⟨h1, h2⟩ | hlink
        · exact Or.inl ⟨(h1.congr hy').mono hsub, (h2.congr hz').mono hsub⟩
        · exact Or.inr (by rwa [linksTo_congr hy'])

omit [DecidableEq ι] in
/-- So does unlinking a harmless node that is on no list. -/
theorem Calm.unlink_unlisted (hx : ∀ i, x ∉ L i) (hcalm : Calm h head L I (x :: xs)) :
    Calm (h.unlink x) head L I xs := by
  obtain ⟨hfirst, hrest⟩ := List.pairwise_cons.mp hcalm.keeps
  have hharm := (hcalm.harmless x List.mem_cons_self).resolve_left fun ⟨i, hi⟩ ↦ hx i hi
  have hkeep : ∀ y ∈ xs, ¬ (∃ i, y ∈ L i) →
      LeadsOutside h (Watched head L I) x ∧ LeadsOutside h (Watched head L I) y ∨
        ¬ LinksTo h x y := fun y hy hlist ↦
    ((hfirst y hy).resolve_left hlist).elim (fun hc ↦ absurd hc.1 fun ⟨i, hi⟩ ↦ hx i hi) And.right
  -- what leads nowhere before still leads nowhere
  have hout : ∀ y ∈ xs, ¬ (∃ i, y ∈ L i) → LeadsOutside h (Watched head L I) y →
      LeadsOutside (h.unlink x) (Watched head L I) y := by
    intro y hy hlist h1
    rcases hkeep y hy hlist with ⟨h2, -⟩ | hlink
    · exact h1.unlink h2
    · exact h1.congr (Heap.unlink_of_not_linksTo hlink)
  refine ⟨fun y hy ↦ ?_, hrest.imp_of_mem fun {y z} hy hz hyz ↦ ?_⟩
  · by_cases hlist : ∃ i, y ∈ L i
    · exact Or.inl hlist
    · refine Or.inr ?_
      rcases hkeep y hy hlist with ⟨-, h1⟩ | hlink
      · exact (hout y hy hlist h1).harmless
      · have h1 := (hcalm.harmless y (List.mem_cons_of_mem _ hy)).resolve_left hlist
        intro z hz
        rw [hharm.unlink_apply hz, Heap.unlink_of_not_linksTo hlink]
        exact h1 z hz
  · by_cases hlist : ∃ i, z ∈ L i
    · exact Or.inl hlist
    refine Or.inr ((hyz.resolve_left hlist).imp (fun ⟨hy1, hrel⟩ ↦ ⟨hy1, ?_⟩)
      fun ⟨hy1, hrel⟩ ↦ ⟨hy1, ?_⟩)
    · rcases hkeep z hz hlist with ⟨-, h1⟩ | hlink
      · exact Or.inl (hout z hz hlist h1)
      · refine hrel.imp (hout z hz hlist) fun hzy ↦ ?_
        rwa [linksTo_congr (Heap.unlink_of_not_linksTo hlink)]
    · have hnone : ¬ ∃ i, y ∈ L i := fun ⟨i, hi⟩ ↦ hy1 i hi
      rcases hrel with ⟨h1, h2⟩ | hyz'
      · exact Or.inl ⟨hout y hy hnone h1, hout z hz hlist h2⟩
      · rcases hkeep z hz hlist with ⟨-, hz1⟩ | hlinkz
        · rcases hkeep y hy hnone with ⟨-, hy1⟩ | hlinky
          · exact Or.inl ⟨hout y hy hnone hy1, hout z hz hlist hz1⟩
          · refine Or.inr ?_
            rwa [linksTo_congr (Heap.unlink_of_not_linksTo hlinky)]
        · exact Or.inr fun hlink ↦ hlink.of_unlink.elim hyz' hlinkz

omit [DecidableEq ν] [DecidableEq ι] in
/-- Without links that lead to a watched node all is calm. -/
theorem calm_of_leadsOutside
    (hout : ∀ x ∈ xs, (∃ i, x ∈ L i) ∨ LeadsOutside h (Watched head L I) x) :
    Calm h head L I xs := by
  refine ⟨fun x hx ↦ (hout x hx).imp_right LeadsOutside.harmless,
    List.pairwise_of_forall_mem_list fun x hx y hy ↦ (hout y hy).imp_right fun h2 ↦ ?_⟩
  by_cases hlist : ∃ i, x ∈ L i
  · exact Or.inl ⟨hlist, Or.inl h2⟩
  · refine Or.inr ⟨fun i hi ↦ hlist ⟨i, hi⟩, Or.inl ⟨(hout x hx).resolve_left hlist, h2⟩⟩

/-- **Unlinking calm nodes in turn deletes them from the lists**, and leaves the nodes of `I`
alone. -/
theorem Lists.unlinkAll {xs : List ν} {h : Heap ν} {L : ι → List ν} (hL : Lists h head L)
    (hI : ∀ y ∈ I, ∀ i, y ∉ head i :: L i) (hheads : ∀ x ∈ xs, ∀ i, x ≠ head i) (hnd : xs.Nodup)
    (hcalm : Calm h head L I xs) :
    Lists (xs.foldl Heap.unlink h) head (fun i ↦ (L i).diff xs) ∧
      ∀ y ∈ I, xs.foldl Heap.unlink h y = h y := by
  induction xs generalizing h L with
  | nil => exact ⟨by simpa using hL, fun _ _ ↦ rfl⟩
  | cons x xs ih =>
    obtain ⟨hxs, hnd⟩ := List.nodup_cons.mp hnd
    have hheads' : ∀ y ∈ xs, ∀ i, y ≠ head i := fun y hy ↦ hheads y (List.mem_cons_of_mem _ hy)
    have hI' : ∀ y ∈ I, ∀ i, y ∉ head i :: (L i).erase x := by
      intro y hy i hmem
      refine hI y hy i ?_
      rcases List.mem_cons.mp hmem with rfl | hmem
      · exact List.mem_cons_self
      · exact List.mem_cons_of_mem _ (List.mem_of_mem_erase hmem)
    have hstep : Lists (h.unlink x) head (fun i ↦ (L i).erase x) ∧
        Calm (h.unlink x) head (fun i ↦ (L i).erase x) I xs ∧ ∀ y ∈ I, h.unlink x y = h y := by
      by_cases hlist : ∃ i, x ∈ L i
      · obtain ⟨i, hi⟩ := hlist
        refine ⟨?_, hcalm.unlink_listed hL hheads' hi hxs, fun y hy ↦ ?_⟩
        · rw [hL.erase_eq_update hi]
          exact hL.unlink hi
        · exact hL.unlink_apply hi (hI y hy)
      · have hnone : ∀ i, x ∉ L i := fun i hi ↦ hlist ⟨i, hi⟩
        have hharm := (hcalm.harmless x List.mem_cons_self).resolve_left hlist
        have herase : (fun i ↦ (L i).erase x) = L :=
          funext fun i ↦ List.erase_of_not_mem (hnone i)
        rw [herase]
        refine ⟨hL.congr (fun i ↦ ?_) fun i y hy ↦ ?_, hcalm.unlink_unlisted hnone,
          fun y hy ↦ hharm.unlink_apply (Or.inr hy)⟩
        · rw [hharm.unlink_apply (Or.inl ⟨i, List.mem_cons_self⟩)]
        · exact hharm.unlink_apply (Or.inl ⟨i, List.mem_cons_of_mem _ hy⟩)
    obtain ⟨hlists, hcalm', hsame⟩ := hstep
    obtain ⟨h1, h2⟩ := ih hlists hI' hheads' hnd hcalm'
    refine ⟨by simpa only [List.diff_cons, List.foldl_cons] using h1, fun y hy ↦ ?_⟩
    rw [List.foldl_cons, h2 y hy, hsame y hy]

end Calm

/-! ## Lists without heads -/

/-- Linking a fresh `x` behind a node in the middle of a chain puts it there. -/
theorem Chain.linkAfter_mid {h : Heap ν} {a c x : ν} {l m : List ν} (hc : Chain h a (l ++ c :: m))
    (hnd : (a :: (l ++ c :: m)).Nodup) (hx : x ∉ a :: (l ++ c :: m)) :
    Chain (h.linkAfter c x) a (l ++ c :: x :: m) := by
  induction l generalizing a with
  | nil =>
    rw [List.nil_append] at hc hnd hx ⊢
    obtain ⟨h1, h2, h3⟩ := hc
    obtain ⟨ha, hnd'⟩ := List.nodup_cons.mp hnd
    simp only [List.mem_cons, not_or] at hx ha
    refine ⟨?_, ?_, h3.linkAfter hnd' hx.2.1 hx.2.2⟩
    · rw [Heap.linkAfter_next, if_neg ha.1, if_neg fun hax ↦ hx.1 hax.symm, h1]
    · rw [Heap.linkAfter_prev, if_neg, if_neg fun hcx ↦ hx.2.1 hcx.symm, h2]
      rw [h3.next_head]
      exact fun hmem ↦ (List.nodup_cons.mp hnd').1 (List.mem_of_head? hmem)
  | cons b l ih =>
    rw [List.cons_append] at hc hnd hx ⊢
    obtain ⟨h1, h2, h3⟩ := hc
    obtain ⟨ha, hnd'⟩ := List.nodup_cons.mp hnd
    simp only [List.mem_cons, List.mem_append, not_or] at hx ha
    refine ⟨?_, ?_, ih h3 hnd' (by simpa using hx.2)⟩
    · rw [Heap.linkAfter_next, if_neg ha.2.2.1, if_neg fun hax ↦ hx.1 hax.symm, h1]
    · -- what follows `c` stands after `b`
      rw [Heap.linkAfter_prev, if_neg, if_neg fun hbx ↦ hx.2.1 hbx.symm, h2]
      rw [h3.next_mid]
      intro hmem
      exact (List.nodup_cons.mp hnd').1 (by simp [List.mem_of_head? hmem])

/-- The nodes of `l` make up a whole list: nothing comes before the first one. -/
def Row (h : Heap ν) : List ν → Prop
  | [] => True
  | a :: l => (h a).prev = none ∧ Chain h a l

omit [DecidableEq ν] [DecidableEq ι] in
theorem Row.congr {h h' : Heap ν} {l : List ν} (hl : Row h l) (hx : ∀ b ∈ l, h' b = h b) :
    Row h' l := by
  cases l with
  | nil => trivial
  | cons a l =>
    refine ⟨by rw [hx a (by simp), hl.1], hl.2.congr (fun b hb ↦ by rw [hx b hb]) fun b hb ↦ ?_⟩
    rw [hx b (List.mem_cons_of_mem _ hb)]

omit [DecidableEq ν] [DecidableEq ι] in
/-- The links of a node of a list lead to nodes of the list. -/
theorem Row.links_mem {h : Heap ν} {l m : List ν} {x : ν} (hl : Row h (l ++ x :: m)) :
    (∀ p, (h x).prev = some p → p ∈ l) ∧ (h x).next = m.head? := by
  cases l with
  | nil =>
    refine ⟨fun p hp ↦ ?_, hl.2.next_head⟩
    rw [hl.1] at hp
    exact absurd hp (by simp)
  | cons a l =>
    obtain ⟨q, hq, hxq⟩ := hl.2.prev_mid
    refine ⟨fun p hp ↦ ?_, hl.2.next_mid⟩
    rw [hxq, Option.some.injEq] at hp
    exact hp ▸ hq

theorem Row.linkAfter {h : Heap ν} {l m : List ν} {c x : ν} (hl : Row h (l ++ c :: m))
    (hnd : (l ++ c :: m).Nodup) (hx : x ∉ l ++ c :: m) :
    Row (h.linkAfter c x) (l ++ c :: x :: m) := by
  cases l with
  | nil =>
    obtain ⟨hc, -⟩ := List.nodup_cons.mp hnd
    simp only [List.nil_append, List.mem_cons, not_or] at hx
    refine ⟨?_, hl.2.linkAfter hnd hx.1 hx.2⟩
    rw [Heap.linkAfter_prev, if_neg, if_neg fun hcx ↦ hx.1 hcx.symm, hl.1]
    rw [hl.2.next_head]
    exact fun hmem ↦ hc (List.mem_of_head? hmem)
  | cons a l =>
    rw [List.cons_append] at hl hnd hx ⊢
    refine ⟨?_, hl.2.linkAfter_mid hnd hx⟩
    simp only [List.mem_cons, not_or] at hx
    rw [Heap.linkAfter_prev, if_neg, if_neg fun hax ↦ hx.1 hax.symm, hl.1]
    rw [hl.2.next_mid]
    intro hmem
    exact (List.nodup_cons.mp hnd).1 (by simp [List.mem_of_head? hmem])

theorem Row.unlink {h : Heap ν} {l m : List ν} {x : ν} (hl : Row h (l ++ x :: m))
    (hnd : (l ++ x :: m).Nodup) : Row (h.unlink x) (l ++ m) := by
  cases l with
  | nil =>
    rw [List.nil_append] at hl hnd ⊢
    obtain ⟨hprev, hchain⟩ := hl
    cases m with
    | nil => trivial
    | cons c m =>
      obtain ⟨h1, -, h3⟩ := hchain
      have hcm := (List.nodup_cons.mp (List.nodup_cons.mp hnd).2).1
      refine ⟨by rw [Heap.unlink_prev, if_pos h1, hprev], h3.congr (fun b _ ↦ ?_) fun b hb ↦ ?_⟩
      · rw [Heap.unlink_next, hprev, if_neg (by simp)]
      · rw [Heap.unlink_prev, h1, if_neg]
        exact fun hcb ↦ hcm (Option.some.inj hcb ▸ hb)
  | cons a l =>
    rw [List.cons_append] at hl hnd ⊢
    refine ⟨?_, hl.2.unlink hnd⟩
    rw [Heap.unlink_prev, if_neg, hl.1]
    rw [hl.2.next_mid]
    intro hmem
    exact (List.nodup_cons.mp hnd).1 (by simp [List.mem_of_head? hmem])

/-- The lists `S i` share no node. -/
structure Rows (h : Heap ν) (S : ι → List ν) : Prop where
  /-- Each list is a proper one. -/
  row : ∀ i, Row h (S i)
  /-- No list visits a node twice. -/
  nodup : ∀ i, (S i).Nodup
  /-- A node is on one list at most. -/
  unique : ∀ i j x, x ∈ S i → x ∈ S j → i = j

variable {S : ι → List ν} {i : ι} {l m : List ν}

omit [DecidableEq ν] in
/-- What may be said of the lists once `S i` is replaced by a list of its own nodes and of nodes
that were on no list. -/
theorem Rows.update (hS : Rows h S) {s : List ν} (hrow : Row h' s) (hnd : s.Nodup)
    (hs : ∀ x ∈ s, x ∈ S i ∨ ∀ j, x ∉ S j) (hothers : ∀ j, j ≠ i → ∀ x ∈ S j, h' x = h x) :
    Rows h' (Function.update S i s) where
  row j := by
    rcases eq_or_ne j i with rfl | hj
    · rwa [Function.update_self]
    · rw [Function.update_of_ne hj]
      exact (hS.row j).congr (hothers j hj)
  nodup j := by
    rcases eq_or_ne j i with rfl | hj
    · rwa [Function.update_self]
    · rw [Function.update_of_ne hj]
      exact hS.nodup j
  unique j k x hxj hxk := by
    -- where a node was before, if it was anywhere
    have hback : ∀ j, x ∈ Function.update S i s j → x ∈ S j ∨ j = i ∧ ∀ j, x ∉ S j := by
      intro j hx
      rcases eq_or_ne j i with rfl | hj
      · rw [Function.update_self] at hx
        exact (hs x hx).imp_right fun hnone ↦ ⟨rfl, hnone⟩
      · rw [Function.update_of_ne hj] at hx
        exact Or.inl hx
    rcases hback j hxj with hj | ⟨hj, hnone⟩ <;> rcases hback k hxk with hk | ⟨hk, hnone'⟩
    · exact hS.unique j k x hj hk
    · exact absurd hj (hnone' j)
    · exact absurd hk (hnone k)
    · exact hj.trans hk.symm

omit [DecidableEq ν] [DecidableEq ι] in
theorem Rows.ne_of_mem (hS : Rows h S) {j : ι} (hij : j ≠ i) {b c : ν} (hb : b ∈ S j)
    (hc : c ∈ S i) : c ≠ b := by
  rintro rfl
  exact hij (hS.unique j i c hb hc)

/-- **Linking a fresh node behind a node inserts it there**, and changes no other list. -/
theorem Rows.linkAfter (hS : Rows h S) {c x : ν} (hi : S i = l ++ c :: m) (hx : ∀ j, x ∉ S j) :
    Rows (h.linkAfter c x) (Function.update S i (l ++ c :: x :: m)) := by
  have hrow := hS.row i
  have hnd := hS.nodup i
  have hxi := hx i
  rw [hi] at hrow hnd hxi
  have hperm : (l ++ c :: x :: m).Perm (x :: (l ++ c :: m)) := by
    have := @List.perm_middle _ x (l ++ [c]) m
    simpa using this
  refine hS.update (hrow.linkAfter hnd hxi) (hperm.nodup_iff.mpr (List.nodup_cons.mpr ⟨hxi, hnd⟩))
    (fun y hy ↦ ?_) fun j hj y hy ↦ ?_
  · rcases List.mem_cons.mp (hperm.mem_iff.mp hy) with rfl | hy
    · exact Or.inr hx
    · exact Or.inl (hi ▸ hy)
  · have hyc : c ≠ y := hS.ne_of_mem hj hy (by simp [hi])
    have hyx : y ≠ x := fun hyx ↦ hx j (hyx ▸ hy)
    have hnext : (h c).next ≠ some y := by
      rw [hrow.links_mem.2]
      exact fun hmem ↦ hS.ne_of_mem hj hy (by simp [hi, List.mem_of_head? hmem]) rfl
    refine Link.ext ?_ ?_
    · rw [Heap.linkAfter_prev, if_neg hnext, if_neg hyx]
    · rw [Heap.linkAfter_next, if_neg hyc.symm, if_neg hyx]

/-- **Unlinking a node deletes it**, and changes no other list. -/
theorem Rows.unlink (hS : Rows h S) {x : ν} (hi : S i = l ++ x :: m) :
    Rows (h.unlink x) (Function.update S i (l ++ m)) := by
  have hrow := hS.row i
  have hnd := hS.nodup i
  rw [hi] at hrow hnd
  have hsub : (l ++ m).Sublist (l ++ x :: m) :=
    (List.Sublist.refl l).append (List.sublist_cons_self x m)
  refine hS.update (hrow.unlink hnd) (hnd.sublist hsub) (fun y hy ↦ ?_) fun j hj y hy ↦ ?_
  · exact Or.inl (hi ▸ hsub.subset hy)
  · refine Link.ext ?_ ?_
    · rw [Heap.unlink_prev, if_neg]
      rw [hrow.links_mem.2]
      exact fun hmem ↦ hS.ne_of_mem hj hy (by simp [hi, List.mem_of_head? hmem]) rfl
    · rw [Heap.unlink_next, if_neg]
      exact fun hp ↦ hS.ne_of_mem hj hy (by simp [hi, hrow.links_mem.1 y hp]) rfl

omit [DecidableEq ι] in
/-- **Unlinking a node once more does nothing**, if it is not its own neighbour. -/
theorem Heap.unlink_unlink {x : ν} (hp : (h x).prev ≠ some x) (hn : (h x).next ≠ some x) :
    (h.unlink x).unlink x = h.unlink x := by
  have hx : h.unlink x x = h x := by
    refine Link.ext ?_ ?_
    · rw [Heap.unlink_prev, if_neg hn]
    · rw [Heap.unlink_next, if_neg hp]
  funext b
  refine Link.ext ?_ ?_
  · rw [Heap.unlink_prev, hx, Heap.unlink_prev]
    split <;> rfl
  · rw [Heap.unlink_next, hx, Heap.unlink_next]
    split <;> rfl

end Intrusive

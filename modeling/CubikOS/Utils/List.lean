import CubikOS.Lib.Intrusive

/-!
# The kernel's intrusive lists

`LinkedListRemove` and `LinkedListAppend` of `Kernel/src/utils/list.c`.  Every free list, slab
list and cache list of the kernel is built from these two, so they are kept apart from any one of
their users: the heap is an `Intrusive.Heap` over whatever addresses the user has.

`LinkedListRemove` is the textbook operation, `Heap.unlink`.  `LinkedListAppend` is not quite
`Heap.linkAfter`: it writes `node->next` only when something already follows `current`, so a node
appended to an empty list keeps the `next` link of its previous life.  `LinkedListRemove` leaves
that link behind, and `linkedListAppend_eq` says when the difference cannot be seen.

The second half compares a whole run of the two operations with the lists it is meant to maintain.
A step is `Harmless` when no leftover link gets in the way of it, and a run keeps to the abstract
lists for exactly as long as its steps are.

The last part is about single steps in which no link is left over.  A node may be appended anywhere
in a list, and any node may be removed, also the first one of a list that has no head.
-/

set_option autoImplicit false

namespace CubikOS

open Intrusive

universe u v

variable {ν : Type u} {ι : Type v} [DecidableEq ν]

/-! ## The two functions -/

/-- `LinkedListRemove(node)`: join the two neighbours of `node`.  The node's own links are left as
they are. -/
def linkedListRemove (h : Heap ν) (node : ν) : Heap ν :=
  let prevNode := (h node).prev
  let nextNode := (h node).next
  let h := match prevNode with
    | some p => h.setNext p nextNode
    | none => h
  match nextNode with
  | some q => h.setPrev q prevNode
  | none => h

/-- `LinkedListAppend(current, node)`: insert `node` behind `current`. -/
def linkedListAppend (h : Heap ν) (current node : Option ν) : Heap ν :=
  match current, node with
  | some current, some node =>
    let h := h.setPrev node (some current)
    -- `node->next` is only written in this branch
    let h := match (h current).next with
      | some first => (h.setNext node (some first)).setPrev first (some node)
      | none => h
    h.setNext current (some node)
  | _, _ => h

theorem linkedListRemove_eq (h : Heap ν) (node : ν) : linkedListRemove h node = h.unlink node :=
  rfl

/-- Appending is the textbook insertion, unless the list is empty and the node still carries a
`next` link. -/
theorem linkedListAppend_eq {h : Heap ν} {current node : ν}
    (hclean : (h current).next ≠ none ∨ (h node).next = none) :
    linkedListAppend h (some current) (some node) = h.linkAfter current node := by
  rcases hn : (h current).next with _ | first
  · have hnode : (h node).next = none := hclean.resolve_left (by simp [hn])
    have hset : (h.setPrev node (some current)).setNext node none =
        h.setPrev node (some current) := by
      funext b
      rw [Heap.setNext]
      split
      · rename_i hb; subst hb; simp [Heap.setPrev, hnode]
      · rfl
    simp only [linkedListAppend, Heap.setPrev_next, hn, Heap.linkAfter, Heap.setPrev?, hset]
  · simp only [linkedListAppend, Heap.setPrev_next, hn, Heap.linkAfter, Heap.setPrev?]

/-- The `next` links after an append. -/
theorem linkedListAppend_next (h : Heap ν) {current node : ν} (b : ν) (hne : node ≠ current) :
    (linkedListAppend h (some current) (some node) b).next =
      if b = current then some node
      else if b = node then ((h current).next.or (h node).next) else (h b).next := by
  rcases hn : (h current).next with _ | first
  · simp only [linkedListAppend, Heap.setPrev_next, hn, Heap.setNext_next]
    split
    · rfl
    · split
      · rename_i hb; subst hb; simp
      · rfl
  · simp [linkedListAppend, hn]

/-! ## Runs of list operations

A run works on heads `Sum.inl i` and on nodes `Sum.inr n`. -/

/-- One operation on a set of lists: `LinkedListAppend(head i, n)` or `LinkedListRemove(n)`. -/
inductive ListOp (ι : Type v) (ν : Type u) where
  | append (i : ι) (n : ν)
  | remove (n : ν)
deriving DecidableEq

variable [DecidableEq ι]

/-- What the operation does to the links. -/
def ListOp.exec (h : Heap (ι ⊕ ν)) : ListOp ι ν → Heap (ι ⊕ ν)
  | append i n => linkedListAppend h (some (.inl i)) (some (.inr n))
  | remove n => linkedListRemove h (.inr n)

/-- What the operation is meant to do: insert at the front, or delete. -/
def ListOp.spec (L : ι → List ν) : ListOp ι ν → ι → List ν
  | append i n => Function.update L i (n :: L i)
  | remove n => fun i ↦ (L i).erase n

/-- A node is appended only while it is on no list; any node may be removed at any time. -/
def ListOp.Legal (L : ι → List ν) : ListOp ι ν → Prop
  | append _ n => ∀ j, n ∉ L j
  | remove _ => True

/-- The links spell out the lists: walking `next` from each head visits exactly the nodes of its
list and ends at null, and `prev` mirrors `next`. -/
def Represents (h : Heap (ι ⊕ ν)) (L : ι → List ν) : Prop :=
  ∀ i, Chain h (.inl i) ((L i).map .inr)

/-- The nodes the lists can see: the heads, and what is on a list. -/
def Visible (L : ι → List ν) : ι ⊕ ν → Prop
  | .inl _ => True
  | .inr n => ∃ i, n ∈ L i

/-- No leftover link gets in the way of the operation.  An append finds a list with something on
it, or a node without a `next` link; a remove finds its node on a list, or finds that whatever
visible neighbours the node still names are linked as the remove would link them. -/
def ListOp.Harmless (h : Heap (ι ⊕ ν)) (L : ι → List ν) : ListOp ι ν → Prop
  | append i n => (h (.inl i)).next ≠ none ∨ (h (.inr n)).next = none
  | remove n => (∃ i, n ∈ L i) ∨
      (∀ p, (h (.inr n)).prev = some p → Visible L p → (h p).next = (h (.inr n)).next) ∧
      ∀ q, (h (.inr n)).next = some (.inr q) → (∃ i, q ∈ L i) →
        (h (.inr q)).prev = (h (.inr n)).prev

/-- Every step of the run from `L` is legal. -/
def LegalRun (L : ι → List ν) : List (ListOp ι ν) → Prop
  | [] => True
  | op :: ops => op.Legal L ∧ LegalRun (op.spec L) ops

/-- Every state of the run represents the lists the run has made so far. -/
def Tracks (h : Heap (ι ⊕ ν)) (L : ι → List ν) : List (ListOp ι ν) → Prop
  | [] => Represents h L
  | op :: ops => Represents h L ∧ Tracks (op.exec h) (op.spec L) ops

/-- Every step of the run is harmless in the state it starts from. -/
def HarmlessRun (h : Heap (ι ⊕ ν)) (L : ι → List ν) : List (ListOp ι ν) → Prop
  | [] => True
  | op :: ops => op.Harmless h L ∧ HarmlessRun (op.exec h) (op.spec L) ops

/-- The abstract lists of a legal run: no node occurs twice. -/
structure Apart (L : ι → List ν) : Prop where
  /-- No node is twice on one list. -/
  nodup : ∀ i, (L i).Nodup
  /-- No node is on two lists. -/
  unique : ∀ i j n, n ∈ L i → n ∈ L j → i = j

omit [DecidableEq ν] [DecidableEq ι] in
theorem Apart.empty : Apart fun _ : ι ↦ ([] : List ν) :=
  ⟨fun _ ↦ List.nodup_nil, fun _ _ _ h ↦ absurd h (by simp)⟩

theorem Apart.spec {L : ι → List ν} (hL : Apart L) {op : ListOp ι ν} (hop : op.Legal L) :
    Apart (op.spec L) := by
  cases op with
  | append i n =>
    have hmem : ∀ j m, m ∈ Function.update L i (n :: L i) j → m = n ∧ j = i ∨ m ∈ L j := by
      intro j m hm
      rcases eq_or_ne j i with rfl | hj
      · rw [Function.update_self] at hm
        rcases List.mem_cons.mp hm with rfl | hm
        · exact Or.inl ⟨rfl, rfl⟩
        · exact Or.inr hm
      · rw [Function.update_of_ne hj] at hm
        exact Or.inr hm
    refine ⟨fun j ↦ ?_, fun j k m hj hk ↦ ?_⟩
    · rw [ListOp.spec]
      rcases eq_or_ne j i with rfl | hj
      · rw [Function.update_self]
        exact List.nodup_cons.mpr ⟨hop j, hL.nodup j⟩
      · rw [Function.update_of_ne hj]
        exact hL.nodup j
    · rcases hmem j m hj with ⟨rfl, rfl⟩ | hj' <;> rcases hmem k m hk with ⟨hm, rfl⟩ | hk'
      · rfl
      · exact absurd hk' (hop k)
      · exact absurd (hm ▸ hj') (hop j)
      · exact hL.unique j k m hj' hk'
  | remove n =>
    exact ⟨fun i ↦ (hL.nodup i).erase n, fun i j m hi hj ↦
      hL.unique i j m (List.mem_of_mem_erase hi) (List.mem_of_mem_erase hj)⟩

omit [DecidableEq ν] [DecidableEq ι] in
theorem Represents.lists {h : Heap (ι ⊕ ν)} {L : ι → List ν} (hr : Represents h L)
    (hL : Apart L) : Lists h Sum.inl fun i ↦ (L i).map Sum.inr where
  chain := hr
  nodup i := (hL.nodup i).map Sum.inr_injective
  unique i j x hi hj := by
    obtain ⟨n, hn, rfl⟩ := List.mem_map.mp hi
    obtain ⟨m, hm, hmn⟩ := List.mem_map.mp hj
    rw [Sum.inr.injEq] at hmn
    exact hL.unique i j n hn (hmn ▸ hm)
  head_notMem i j := by simp
  head_inj := Sum.inl_injective

omit [DecidableEq ν] [DecidableEq ι] in
/-- Once the lists are represented, another store represents the same lists exactly when it
agrees on every `next` link of a visible node and every `prev` link of a listed one. -/
theorem Represents.iff_agree {h h' : Heap (ι ⊕ ν)} {L : ι → List ν} (hr : Represents h L) :
    Represents h' L ↔
      (∀ c, Visible L c → (h' c).next = (h c).next) ∧
        ∀ n, (∃ i, n ∈ L i) → (h' (.inr n)).prev = (h (.inr n)).prev := by
  constructor
  · intro hr'
    refine ⟨fun c hc ↦ ?_, fun n hn ↦ ?_⟩
    · cases c with
      | inl i => exact (hr i).next_eq (hr' i) _ (by simp)
      | inr n =>
        obtain ⟨i, hi⟩ := hc
        exact (hr i).next_eq (hr' i) _ (by simp [hi])
    · obtain ⟨i, hi⟩ := hn
      exact (hr i).prev_eq (hr' i) _ (by simp [hi])
  · rintro ⟨hn, hp⟩ i
    refine (hr i).congr ?_ ?_
    · intro b hb
      rcases List.mem_cons.mp hb with rfl | hb
      · exact hn _ trivial
      · obtain ⟨n, hmem, rfl⟩ := List.mem_map.mp hb
        exact hn _ ⟨i, hmem⟩
    · intro b hb
      obtain ⟨n, hmem, rfl⟩ := List.mem_map.mp hb
      exact hp n ⟨i, hmem⟩

/-! ### One step -/

theorem represents_append_iff {h : Heap (ι ⊕ ν)} {L : ι → List ν} (hr : Represents h L)
    (hL : Apart L) {i : ι} {n : ν} (hn : ∀ j, n ∉ L j) :
    Represents ((ListOp.append i n).exec h) ((ListOp.append i n).spec L) ↔
      (ListOp.append i n).Harmless h L := by
  constructor
  · -- on an empty list the appended node must end the walk, and its `next` link was not written
    intro hr'
    rw [ListOp.Harmless]
    by_contra hcon
    simp only [not_or, not_not] at hcon
    obtain ⟨hhead, hnode⟩ := hcon
    have hnil : L i = [] := by
      have h1 := (hr i).next_head
      rw [hhead] at h1
      simpa using (List.head?_eq_none_iff.mp h1.symm)
    have h1 := hr' i
    simp only [ListOp.exec, ListOp.spec, Function.update_self, hnil, List.map_cons,
      List.map_nil] at h1
    have h2 : (linkedListAppend h (some (.inl i)) (some (.inr n)) (.inr n)).next = none := h1.2.2
    rw [linkedListAppend_next h _ (by simp), if_neg (by simp), if_pos rfl, hhead] at h2
    exact hnode (by simpa using h2)
  · intro hclean
    have hlists := (hr.lists hL).linkHead i (x := .inr n) (by simpa using hn) (by simp)
    intro j
    have hj := hlists.chain j
    rw [← linkedListAppend_eq hclean] at hj
    refine (congrArg (Chain _ _) ?_).mp hj
    simp only [ListOp.spec]
    rcases eq_or_ne j i with rfl | hji
    · simp
    · simp [Function.update_of_ne hji]

omit [DecidableEq ι] in
theorem erase_eq_update [DecidableEq ι] {L : ι → List ν} (hL : Apart L) {i : ι} {n : ν}
    (hn : n ∈ L i) : (fun j ↦ (L j).erase n) = Function.update L i ((L i).erase n) := by
  funext j
  rcases eq_or_ne j i with rfl | hj
  · rw [Function.update_self]
  · rw [Function.update_of_ne hj, List.erase_of_not_mem]
    exact fun hnj ↦ hj (hL.unique j i n hnj hn)

theorem represents_remove_mem {h : Heap (ι ⊕ ν)} {L : ι → List ν} (hr : Represents h L)
    (hL : Apart L) {i : ι} {n : ν} (hn : n ∈ L i) :
    Represents ((ListOp.remove n).exec h) ((ListOp.remove n).spec L) := by
  have hlists := (hr.lists hL).unlink (i := i) (x := .inr n) (by simpa using hn)
  intro j
  have hj := hlists.chain j
  rw [ListOp.spec, erase_eq_update hL hn]
  rw [← linkedListRemove_eq] at hj
  refine (congrArg (Chain _ _) ?_).mp hj
  rcases eq_or_ne j i with rfl | hji
  · rw [Function.update_self, Function.update_self]
    -- the comparison `Lists` uses is the one of `DecidableEq`, not the derived one of `Sum`
    let : BEq (ι ⊕ ν) := instBEqOfDecidableEq
    exact (List.map_erase Sum.inr_injective (L j)).symm
  · simp [Function.update_of_ne hji]

theorem represents_remove_iff {h : Heap (ι ⊕ ν)} {L : ι → List ν} (hr : Represents h L)
    (hL : Apart L) {n : ν} :
    Represents ((ListOp.remove n).exec h) ((ListOp.remove n).spec L) ↔
      (ListOp.remove n).Harmless h L := by
  by_cases hn : ∃ i, n ∈ L i
  · obtain ⟨i, hi⟩ := hn
    exact ⟨fun _ ↦ Or.inl ⟨i, hi⟩, fun _ ↦ represents_remove_mem hr hL hi⟩
  -- the lists stay the same, so the links the remove writes must already be there
  have hspec : (ListOp.remove n).spec L = L := by
    funext i
    exact List.erase_of_not_mem fun hi ↦ hn ⟨i, hi⟩
  rw [hspec, hr.iff_agree, ListOp.Harmless, or_iff_right hn, ListOp.exec, linkedListRemove_eq]
  refine and_congr ⟨fun hnext p hp hv ↦ ?_, fun hnext c hc ↦ ?_⟩
    ⟨fun hprev q hq hv ↦ ?_, fun hprev m hm ↦ ?_⟩
  · have h1 := hnext p hv
    rw [Heap.unlink_next, if_pos hp] at h1
    exact h1.symm
  · rw [Heap.unlink_next]
    split
    · rename_i hp; exact (hnext c hp hc).symm
    · rfl
  · have h1 := hprev q hv
    rw [Heap.unlink_prev, if_pos hq] at h1
    exact h1.symm
  · rw [Heap.unlink_prev]
    split
    · rename_i hq; exact (hprev m hq hm).symm
    · rfl

/-- **One step keeps to the lists exactly when it is harmless.** -/
theorem represents_step_iff {h : Heap (ι ⊕ ν)} {L : ι → List ν} (hr : Represents h L)
    (hL : Apart L) {op : ListOp ι ν} (hop : op.Legal L) :
    Represents (op.exec h) (op.spec L) ↔ op.Harmless h L := by
  cases op with
  | append i n => exact represents_append_iff hr hL hop
  | remove n => exact represents_remove_iff hr hL

/-! ### Whole runs -/

theorem Tracks.represents {h : Heap (ι ⊕ ν)} {L : ι → List ν} {ops : List (ListOp ι ν)}
    (ht : Tracks h L ops) : Represents h L := by
  cases ops with
  | nil => exact ht
  | cons op ops => exact ht.1

theorem tracks_iff_harmlessRun {h : Heap (ι ⊕ ν)} {L : ι → List ν} {ops : List (ListOp ι ν)}
    (hr : Represents h L) (hL : Apart L) (hops : LegalRun L ops) :
    Tracks h L ops ↔ HarmlessRun h L ops := by
  induction ops generalizing h L with
  | nil => exact ⟨fun _ ↦ trivial, fun _ ↦ hr⟩
  | cons op ops ih =>
    have hstep := represents_step_iff hr hL hops.1
    constructor
    · rintro ⟨-, ht⟩
      exact ⟨hstep.mp ht.represents, (ih ht.represents (hL.spec hops.1) hops.2).mp ht⟩
    · rintro ⟨hharm, hrun⟩
      have hr' := hstep.mpr hharm
      exact ⟨hr, (ih hr' (hL.spec hops.1) hops.2).mpr hrun⟩

/-- The store every run starts from: no head and no node has a link. -/
def nullHeap : Heap (ι ⊕ ν) := fun _ ↦ Link.null

omit [DecidableEq ν] [DecidableEq ι] in
theorem represents_nullHeap : Represents (nullHeap : Heap (ι ⊕ ν)) fun _ ↦ [] :=
  fun _ ↦ rfl

/-- **A legal run keeps to the abstract lists in every state it reaches if and only if every step
of it is harmless in the state it starts from.** -/
theorem list_refinement_iff_harmless {ops : List (ListOp ι ν)}
    (hops : LegalRun (fun _ ↦ []) ops) :
    Tracks nullHeap (fun _ ↦ []) ops ↔ HarmlessRun nullHeap (fun _ ↦ []) ops :=
  tracks_iff_harmlessRun represents_nullHeap Apart.empty hops

/-- Appending a node and taking it off again, twice over. -/
theorem list_refinement_append_remove :
    Tracks (nullHeap : Heap (Unit ⊕ Bool)) (fun _ ↦ [])
      [.append () true, .remove true, .append () true, .remove true] := by
  refine (list_refinement_iff_harmless ?_).mpr ?_
  · simp [LegalRun, ListOp.Legal, ListOp.spec]
  · simp [HarmlessRun, ListOp.Harmless, ListOp.exec, ListOp.spec, linkedListAppend,
      linkedListRemove, nullHeap, Link.null, Heap.setNext, Heap.setPrev]

/-- **A second remove is not a no-op.**  The node is taken off the list, another one is put there,
and removing the first one once more writes its old `next` link into the head: the list that
should hold `true` is empty. -/
theorem list_refinement_second_remove :
    LegalRun (fun _ : Unit ↦ [])
        [.append () false, .remove false, .append () true, .remove false] ∧
      ¬ Represents
        ([.append () false, .remove false, .append () true, .remove false].foldl ListOp.exec
          (nullHeap : Heap (Unit ⊕ Bool)))
        ([.append () false, .remove false, .append () true, .remove false].foldl ListOp.spec
          fun _ ↦ []) := by
  refine ⟨?_, fun hr ↦ ?_⟩
  · simp [LegalRun, ListOp.Legal, ListOp.spec]
  · have h1 := hr ()
    simp [Chain, ListOp.exec, ListOp.spec, linkedListAppend, linkedListRemove, nullHeap,
      Link.null, Heap.setNext, Heap.setPrev] at h1

/-! ## Single steps

A list that hangs off a head is the one that begins with the head. -/

/-- **Single steps are exact.**  A node without links is inserted behind the one that is named, a
node that is removed is deleted, and all else stays; removing it again and again changes nothing. -/
theorem list_steps_exact {h : Heap ν} {S : ι → List ν} (hS : Rows h S) :
    (∀ i l current m node, S i = l ++ current :: m → (∀ j, node ∉ S j) → h node = Link.null →
      Rows (linkedListAppend h (some current) (some node))
        (Function.update S i (l ++ current :: node :: m))) ∧
    ∀ i l node m, S i = l ++ node :: m → ∀ again,
      Rows ((fun h ↦ linkedListRemove h node)^[again + 1] h) (Function.update S i (l ++ m)) := by
  refine ⟨fun i l current m node hi hnode hnull ↦ ?_, fun i l node m hi again ↦ ?_⟩
  · rw [linkedListAppend_eq (Or.inr (by rw [hnull]; rfl))]
    exact hS.linkAfter hi hnode
  · have hrow := hS.row i
    have hnd := hS.nodup i
    rw [hi] at hrow hnd
    obtain ⟨-, hnd, hnot⟩ := List.nodup_append.mp hnd
    have hprev : (h node).prev ≠ some node := fun hp ↦
      hnot node (hrow.links_mem.1 node hp) node (by simp) rfl
    have hnext : (h node).next ≠ some node := by
      rw [hrow.links_mem.2]
      exact fun hmem ↦ (List.nodup_cons.mp hnd).1 (List.mem_of_head? hmem)
    have hagain : (fun h ↦ linkedListRemove h node)^[again] (h.unlink node) = h.unlink node :=
      Function.iterate_fixed (Heap.unlink_unlink hprev hnext) again
    rw [Function.iterate_succ_apply, linkedListRemove_eq, hagain]
    exact hS.unlink hi

/-- Two nodes on a list, and a third one that is on none. -/
def twoNodes : Heap (Fin 3)
  | 0 => ⟨none, some 1⟩
  | 1 => ⟨some 0, none⟩
  | 2 => Link.null

theorem rows_twoNodes : Rows twoNodes fun _ : Unit ↦ [0, 1] where
  row _ := ⟨rfl, rfl, rfl, rfl⟩
  nodup _ := by decide
  unique _ _ _ _ _ := rfl

/-- The third one is inserted between the two, and the first one is removed. -/
theorem list_steps_exact_twoNodes :
    Rows (linkedListAppend twoNodes (some 0) (some 2))
      (Function.update (fun _ : Unit ↦ [0, 1]) () [0, 2, 1]) ∧
    Rows ((fun h ↦ linkedListRemove h 0)^[3] twoNodes)
      (Function.update (fun _ : Unit ↦ [0, 1]) () [1]) :=
  ⟨(list_steps_exact rows_twoNodes).1 () [] 0 [1] 2 rfl (by decide) rfl,
    (list_steps_exact rows_twoNodes).2 () [] 0 [1] rfl 2⟩

end CubikOS

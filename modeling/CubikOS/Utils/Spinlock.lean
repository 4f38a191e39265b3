import CubikOS.Lib.Tso

/-!
# The spin lock

`AcquireLock`, `ReleaseLock` and `InitLock` of `Kernel/include/utils/spinlock.h`, instruction by
instruction, on any number of processors that share a memory with store buffers.

`AcquireLock` exchanges the lock and a register, and has the lock if 0 came back.  If not, it waits
until it reads 0 and tries again; what it then puts into the lock is not the 1 it began with but
what came back the time before.  `ReleaseLock` exchanges it with 0.  `InitLock` sets its own
parameter to 0, and not the lock.

The processors may run any program that keeps to the lock: the words `P` that the lock protects are
written inside only, and the lock itself by these functions only.

* `code_spec` says all that an instruction of the lock can do, and `Guarded.effect` what any step
  does to the lock.
* `Inv` is what is kept in a run, and `Inv.step` goes through the steps.
* `spinlock_safe`: one processor at a time, and it reads what the one before has written.
* `acquire_alone_iff`: a processor that is trying gets the lock by itself if and only if no other
  has it.
* `acquired_iff`: a lock is ever acquired if and only if it was 0 to begin with.
-/

set_option autoImplicit false

namespace CubikOS

open Tso

/-! ## The functions -/

/-- Where a processor is: in none of these functions, without the lock or with it; at
`xchg %[value], %[lv]`, at `test %[lv], %[lv]` with its jump, at `pause`, or at `cmpl $0, %[value]`
with its jumps, each with `lv` in the register; or at the `xchg` of `ReleaseLock`. -/
inductive Pc where
  | outside
  | xchg (lv : BitVec 32)
  | test (lv : BitVec 32)
  | pause (lv : BitVec 32)
  | cmpl (lv : BitVec 32)
  | inside
  | release (ulv : BitVec 32)
deriving DecidableEq

section Model

variable {ι α : Type} [DecidableEq ι] [DecidableEq α]

/-- `InitLock(lock)`.  `lock` is a parameter, and what is set to 0 is the parameter. -/
def initLock (m : Memory ι α (BitVec 32)) (_lock : α) : Memory ι α (BitVec 32) := m

/-- What `AcquireLock(lock)` begins with: `lockVal` is 1. -/
def acquireLock : Pc := .xchg 1#32

/-- What `ReleaseLock(lock)` begins with: `unlockVal` is 0. -/
def releaseLock : Pc := .release 0#32

/-- What an instruction comes to. -/
structure Executed (ι α : Type) where
  /-- The memory. -/
  memory : Memory ι α (BitVec 32)
  /-- Where the processor goes on. -/
  pc : Pc
  /-- What has been written. -/
  writes : List (α × BitVec 32)

/-- The next instruction of `AcquireLock` or `ReleaseLock` on processor `i`.  There is none outside
of them, and for an `xchg` the processor waits until its writes have arrived. -/
def code (lock : α) (m : Memory ι α (BitVec 32)) (i : ι) : Pc → Option (Executed ι α)
  | .outside => none
  | .xchg lv =>
    if m.buffer i = [] then some ⟨m.exchange lock lv, .test (m.mem lock), [(lock, lv)]⟩ else none
  | .test lv => some ⟨m, if lv = 0#32 then .inside else .pause lv, []⟩
  | .pause lv => some ⟨m, .cmpl lv, []⟩
  | .cmpl lv => some ⟨m, if m.read i lock = 0#32 then .xchg lv else .pause lv, []⟩
  | .inside => none
  | .release ulv =>
    if m.buffer i = [] then some ⟨m.exchange lock ulv, .outside, [(lock, ulv)]⟩ else none

/-! ## The processors -/

/-- The memory, and where each processor is. -/
structure Processors (ι α : Type) where
  /-- What they share. -/
  memory : Memory ι α (BitVec 32)
  /-- Where they are. -/
  pc : ι → Pc

/-- Where a program that keeps to the lock may write. -/
def MayWrite (lock : α) (P : Set α) (pc : Pc) (a : α) : Prop :=
  a ≠ lock ∧ (pc = .outside ∧ a ∉ P ∨ pc = .inside)

/-- One step, and what is written by it: an instruction of the lock, a call of one of its functions,
a write or a locked exchange of the program, or a write that arrives. -/
inductive Step (lock : α) (P : Set α) :
    Processors ι α → List (α × BitVec 32) → Processors ι α → Prop where
  | code {s : Processors ι α} {i : ι} {x : Executed ι α}
      (h : code lock s.memory i (s.pc i) = some x) :
      Step lock P s x.writes ⟨x.memory, Function.update s.pc i x.pc⟩
  | acquire {s : Processors ι α} {i : ι} (h : s.pc i = .outside) :
      Step lock P s [] ⟨s.memory, Function.update s.pc i acquireLock⟩
  | release {s : Processors ι α} {i : ι} (h : s.pc i = .inside) :
      Step lock P s [] ⟨s.memory, Function.update s.pc i releaseLock⟩
  | store {s : Processors ι α} {i : ι} {a : α} (h : MayWrite lock P (s.pc i) a) (v : BitVec 32) :
      Step lock P s [(a, v)] ⟨s.memory.write i a v, s.pc⟩
  | exchange {s : Processors ι α} {i : ι} {a : α} (h : MayWrite lock P (s.pc i) a) (v : BitVec 32)
      (hbuffer : s.memory.buffer i = []) :
      Step lock P s [(a, v)] ⟨s.memory.exchange a v, s.pc⟩
  | flush {s : Processors ι α} (i : ι) : Step lock P s [] ⟨s.memory.flush i, s.pc⟩

/-- A run, and what is written in it, in the order it is written in. -/
inductive LockRun (lock : α) (P : Set α) (s₀ : Processors ι α) :
    List (α × BitVec 32) → Processors ι α → Prop where
  | start : LockRun lock P s₀ [] s₀
  | step {l w : List (α × BitVec 32)} {s s' : Processors ι α} (hrun : LockRun lock P s₀ l s)
      (hstep : Step lock P s w s') : LockRun lock P s₀ (l ++ w) s'

end Model

/-- All processors are outside, and all writes have arrived. -/
structure Processors.Idle {ι α : Type} (s : Processors ι α) : Prop where
  /-- Every processor is outside. -/
  outside : ∀ i, s.pc i = .outside
  /-- No write is on its way. -/
  buffer : ∀ i, s.memory.buffer i = []

/-! ## The lock -/

/-- The processor has the lock.  It has it from when 0 has come back to when it puts 0 back. -/
def Pc.Holds : Pc → Prop
  | .test lv => lv = 0#32
  | .inside => True
  | .release _ => True
  | _ => False

/-- What is in the register. -/
def Pc.Armed : Pc → Prop
  | .xchg lv => lv ≠ 0#32
  | .pause lv => lv ≠ 0#32
  | .cmpl lv => lv ≠ 0#32
  | .release ulv => ulv = 0#32
  | _ => True

@[simp] theorem Pc.holds_outside : ¬ Pc.outside.Holds := id

@[simp] theorem Pc.holds_xchg (lv : BitVec 32) : ¬ (Pc.xchg lv).Holds := id

@[simp] theorem Pc.holds_test (lv : BitVec 32) : (Pc.test lv).Holds ↔ lv = 0#32 := Iff.rfl

@[simp] theorem Pc.holds_pause (lv : BitVec 32) : ¬ (Pc.pause lv).Holds := id

@[simp] theorem Pc.holds_cmpl (lv : BitVec 32) : ¬ (Pc.cmpl lv).Holds := id

@[simp] theorem Pc.holds_inside : Pc.inside.Holds := trivial

@[simp] theorem Pc.holds_release (ulv : BitVec 32) : (Pc.release ulv).Holds := trivial

/-- What is always so: the registers, and that no write to the lock is on its way. -/
structure Guarded {ι α : Type} (lock : α) (s : Processors ι α) : Prop where
  /-- The registers hold what is to be exchanged. -/
  armed : ∀ i, (s.pc i).Armed
  /-- No write to the lock is on its way. -/
  quiet : ∀ i, Silent s.memory {lock} i

theorem Processors.Idle.guarded {ι α : Type} {lock : α} {s : Processors ι α} (h : s.Idle) :
    Guarded lock s where
  armed i := by rw [h.outside i]; trivial
  quiet i := Silent.of_nil (h.buffer i)

section Moves

variable {ι : Type} [DecidableEq ι] {pc : ι → Pc} {pc' : Pc} {i : ι}

/-- One processor goes on. -/
theorem armed_update (h : ∀ j, (pc j).Armed) (h' : pc'.Armed) (j : ι) :
    (Function.update pc i pc' j).Armed := by
  rw [Function.update_apply]
  split
  · exact h'
  · exact h j

theorem holds_update (h : pc'.Holds ↔ (pc i).Holds) (j : ι) :
    (Function.update pc i pc' j).Holds ↔ (pc j).Holds := by
  rw [Function.update_apply]
  split
  · rename_i hj
    rw [hj, h]
  · rfl

end Moves

/-- **All that an instruction of the lock can do**: put what is in the register into the lock, to
take it or to give it back, or go on. -/
theorem code_spec {ι α : Type} [DecidableEq α] {lock : α} {m : Memory ι α (BitVec 32)} {i : ι}
    {pc : Pc} {x : Executed ι α} (h : code lock m i pc = some x) :
    (∃ lv, pc = .xchg lv ∧ m.buffer i = [] ∧
      x = ⟨m.exchange lock lv, .test (m.mem lock), [(lock, lv)]⟩) ∨
    (∃ ulv, pc = .release ulv ∧ m.buffer i = [] ∧
      x = ⟨m.exchange lock ulv, .outside, [(lock, ulv)]⟩) ∨
    (x.memory = m ∧ x.writes = [] ∧ (x.pc.Holds ↔ pc.Holds) ∧ (pc.Armed → x.pc.Armed)) := by
  rcases pc with _ | lv | lv | lv | lv | _ | ulv
  · simp [code] at h
  · rw [code] at h
    split at h
    · rename_i hbuffer
      exact Or.inl ⟨lv, rfl, hbuffer, (Option.some.inj h).symm⟩
    · simp at h
  · obtain rfl := Option.some.inj h
    refine Or.inr (Or.inr ⟨rfl, rfl, ?_, fun _ ↦ ?_⟩)
    · by_cases hlv : lv = 0#32
      · simp only [hlv, if_true, Pc.holds_inside, Pc.holds_test]
      · simp only [hlv, if_false, Pc.holds_pause, Pc.holds_test]
    · dsimp only
      split
      · trivial
      · assumption
  · obtain rfl := Option.some.inj h
    exact Or.inr (Or.inr ⟨rfl, rfl, Iff.rfl, id⟩)
  · obtain rfl := Option.some.inj h
    refine Or.inr (Or.inr ⟨rfl, rfl, ?_, fun harmed ↦ ?_⟩)
    · dsimp only
      split <;> exact Iff.rfl
    · dsimp only
      split <;> exact harmed
  · simp [code] at h
  · rw [code] at h
    split at h
    · rename_i hbuffer
      exact Or.inr (Or.inl ⟨ulv, rfl, hbuffer, (Option.some.inj h).symm⟩)
    · simp at h

section Lock

variable {ι α : Type} [DecidableEq ι] [DecidableEq α] {lock : α} {P : Set α}
  {m₀ : α → BitVec 32} {l w : List (α × BitVec 32)} {s₀ s s' : Processors ι α} {i j : ι}

theorem Guarded.step (h : Guarded lock s) (hstep : Step lock P s w s') : Guarded lock s' := by
  cases hstep with
  | @code i x hcode =>
    rcases code_spec hcode with ⟨lv, -, -, rfl⟩ | ⟨ulv, -, -, rfl⟩ | ⟨hm, -, -, harmed⟩
    · exact ⟨armed_update h.armed trivial, h.quiet⟩
    · exact ⟨armed_update h.armed trivial, h.quiet⟩
    · exact ⟨armed_update h.armed (harmed (h.armed i)), by rw [hm]; exact h.quiet⟩
  | acquire _ => exact ⟨armed_update h.armed (show (1#32 : BitVec 32) ≠ 0#32 by decide), h.quiet⟩
  | release _ => exact ⟨armed_update h.armed rfl, h.quiet⟩
  | store hmay v => exact ⟨h.armed, fun j ↦ (h.quiet j).write (fun _ ↦ hmay.1) v⟩
  | exchange _ v _ => exact ⟨h.armed, h.quiet⟩
  | flush i => exact ⟨h.armed, fun j ↦ (h.quiet j).flush i⟩

/-- What a step does to the lock: nothing, or a processor tries to take it and does not get it,
takes it, or gives it back. -/
inductive Effect (lock : α) (s s' : Processors ι α) : Prop where
  | keep (hword : s'.memory.mem lock = s.memory.mem lock)
      (hholds : ∀ j, (s'.pc j).Holds ↔ (s.pc j).Holds)
  | fail (hword : s.memory.mem lock ≠ 0#32) (hword' : s'.memory.mem lock ≠ 0#32)
      (hholds : ∀ j, (s'.pc j).Holds ↔ (s.pc j).Holds)
  | take (i : ι) (hword : s.memory.mem lock = 0#32) (hword' : s'.memory.mem lock ≠ 0#32)
      (hholds : ∀ j, (s'.pc j).Holds ↔ j = i ∨ (s.pc j).Holds)
  | leave (i : ι) (hholds : (s.pc i).Holds) (hword' : s'.memory.mem lock = 0#32)
      (hholds' : ∀ j, (s'.pc j).Holds ↔ j ≠ i ∧ (s.pc j).Holds)

/-- **What a step does to the lock.** -/
theorem Guarded.effect (h : Guarded lock s) (hstep : Step lock P s w s') : Effect lock s s' := by
  cases hstep with
  | @code i x hcode =>
    have harmed := h.armed i
    rcases code_spec hcode with ⟨lv, hpc, -, rfl⟩ | ⟨ulv, hpc, -, rfl⟩ | ⟨hm, -, hholds, -⟩
    · rw [hpc] at harmed
      have hword' : (s.memory.exchange lock lv).mem lock ≠ 0#32 := by
        rw [Memory.exchange_mem, Function.update_self]
        exact harmed
      by_cases hword : s.memory.mem lock = 0#32
      · refine .take i hword hword' fun j ↦ ?_
        rcases eq_or_ne j i with rfl | hj
        · simp [hword]
        · simp [hj]
      · refine .fail hword hword' (holds_update ?_)
        rw [hpc]
        simp [hword]
    · rw [hpc] at harmed
      obtain rfl : ulv = 0#32 := harmed
      refine .leave i (by rw [hpc]; trivial) (by simp) fun j ↦ ?_
      rcases eq_or_ne j i with rfl | hj
      · simp
      · simp [hj]
    · exact .keep (by rw [hm]) (holds_update hholds)
  | acquire hpc => exact .keep rfl (holds_update (by rw [hpc]; rfl))
  | release hpc => exact .keep rfl (holds_update (by rw [hpc]; rfl))
  | store _ v => exact .keep rfl fun _ ↦ Iff.rfl
  | exchange hmay v _ =>
    exact .keep (by rw [Memory.exchange_mem, Function.update_of_ne hmay.1.symm]) fun _ ↦ Iff.rfl
  | flush i => exact .keep ((h.quiet i).flush_mem rfl) fun _ ↦ Iff.rfl

end Lock

/-! ## One at a time -/

/-- Who has the lock after a step, one at a time and with the lock not 0. -/
theorem Effect.unique {ι α : Type} {lock : α} {s s' : Processors ι α} (h : Effect lock s s')
    (hfree : s.memory.mem lock = 0#32 ↔ ∀ i, ¬ (s.pc i).Holds)
    (hunique : ∀ i j, (s.pc i).Holds → (s.pc j).Holds → i = j) :
    (s'.memory.mem lock = 0#32 ↔ ∀ i, ¬ (s'.pc i).Holds) ∧
      ∀ i j, (s'.pc i).Holds → (s'.pc j).Holds → i = j := by
  rcases h with ⟨hword, hholds⟩ | ⟨hword, hword', hholds⟩ | ⟨i, hword, hword', hholds⟩ |
    ⟨i, hi, hword', hholds⟩
  · simp only [hholds, hword]
    exact ⟨hfree, hunique⟩
  · simp only [hholds]
    exact ⟨iff_of_false hword' fun hnone ↦ hword (hfree.mpr hnone), hunique⟩
  · have hnone := hfree.mp hword
    refine ⟨iff_of_false hword' fun h ↦ h i ((hholds i).mpr (Or.inl rfl)), fun j k hj hk ↦ ?_⟩
    have hj' := ((hholds j).mp hj).resolve_right (hnone j)
    exact hj'.trans (((hholds k).mp hk).resolve_right (hnone k)).symm
  · have hnone : ∀ j, ¬ (s'.pc j).Holds := fun j hj ↦ by
      obtain ⟨hne, hj⟩ := (hholds j).mp hj
      exact hne (hunique j i hj hi)
    exact ⟨iff_of_true hword' hnone, fun j _ hj ↦ absurd hj (hnone j)⟩

section Inv

variable {ι α : Type} [DecidableEq α] {lock : α} {P : Set α} {m₀ : α → BitVec 32}
  {l w : List (α × BitVec 32)} {s₀ s s' : Processors ι α} {i j : ι}

/-- Whoever reads what the lock protects now reads what was written last. -/
def Processors.Reads (s : Processors ι α) (i : ι) : Prop :=
  (s.pc i).Holds ∨ ∀ j, ¬ (s.pc j).Holds

/-- What is kept in a run from a lock that is 0.  `l` is what has been written, and `m₀` what was
there before. -/
structure Inv (lock : α) (P : Set α) (m₀ : α → BitVec 32) (l : List (α × BitVec 32))
    (s : Processors ι α) : Prop extends Guarded lock s where
  /-- The lock is 0 when nobody has it. -/
  free : s.memory.mem lock = 0#32 ↔ ∀ i, ¬ (s.pc i).Holds
  /-- One processor at a time has it. -/
  unique : ∀ i j, (s.pc i).Holds → (s.pc j).Holds → i = j
  /-- The others have nothing on its way to what it protects. -/
  silent : ∀ i, ¬ (s.pc i).Holds → Silent s.memory P i
  /-- Who has it reads what was written last, and so does anybody else while nobody has it. -/
  data : ∀ i, s.Reads i → ∀ a ∈ P, s.memory.read i a = writeAll m₀ l a

theorem Inv.start (hidle : s₀.Idle) (hzero : s₀.memory.mem lock = 0#32) :
    Inv lock P s₀.memory.mem [] s₀ := by
  have hnone : ∀ i, ¬ (s₀.pc i).Holds := fun i ↦ by rw [hidle.outside i]; exact Pc.holds_outside
  exact ⟨hidle.guarded, iff_of_true hzero hnone, fun i _ hi ↦ absurd hi (hnone i),
    fun i _ ↦ Silent.of_nil (hidle.buffer i), fun i _ a _ ↦ Memory.read_of_nil (hidle.buffer i) a⟩

/-- Where a program may write, while another processor reads what is protected. -/
theorem Inv.notMem_of_reads (h : Inv lock P m₀ l s) {a : α} (hmay : MayWrite lock P (s.pc i) a)
    (hj : s.Reads j) (hne : j ≠ i) : a ∉ P := by
  rcases hmay.2 with ⟨-, ha⟩ | hpc
  · exact ha
  · have hi : (s.pc i).Holds := by rw [hpc]; exact Pc.holds_inside
    rcases hj with hj | hnone
    · exact absurd (h.unique j i hj hi) hne
    · exact absurd hi (hnone i)

end Inv

section Steps

variable {ι α : Type} [DecidableEq ι] [DecidableEq α] {lock : α} {P : Set α} {m₀ : α → BitVec 32}
  {l w : List (α × BitVec 32)} {s₀ s s' : Processors ι α} {i j : ι}

/-- A processor goes on, without an effect on memory. -/
theorem Inv.move (h : Inv lock P m₀ l s) {pc : Pc} (hholds : pc.Holds ↔ (s.pc i).Holds)
    (harmed : pc.Armed) : Inv lock P m₀ l ⟨s.memory, Function.update s.pc i pc⟩ := by
  have hsame : ∀ j, (Function.update s.pc i pc j).Holds ↔ (s.pc j).Holds := holds_update hholds
  refine ⟨⟨armed_update h.armed harmed, h.quiet⟩, ?_, fun j k hj hk ↦ ?_, fun j hj ↦ ?_,
    fun j hj ↦ h.data j ?_⟩
  · simp only [hsame]
    exact h.free
  · exact h.unique j k ((hsame j).mp hj) ((hsame k).mp hk)
  · exact h.silent j fun hc ↦ hj ((hsame j).mpr hc)
  · exact hj.imp (hsame j).mp fun hnone k hk ↦ hnone k ((hsame k).mpr hk)

/-- The exchange of `AcquireLock`, whether or not it takes the lock. -/
theorem Inv.xchg (h : Inv lock P m₀ l s) (hlock : lock ∉ P) {lv : BitVec 32}
    (hpc : s.pc i = .xchg lv) (hbuffer : s.memory.buffer i = []) :
    Inv lock P m₀ (l ++ [(lock, lv)])
      ⟨s.memory.exchange lock lv, Function.update s.pc i (.test (s.memory.mem lock))⟩ := by
  have hstep : Step lock P s [(lock, lv)]
      ⟨s.memory.exchange lock lv, Function.update s.pc i (.test (s.memory.mem lock))⟩ :=
    .code (x := ⟨s.memory.exchange lock lv, _, _⟩) (by rw [hpc, code, if_pos hbuffer])
  obtain ⟨hfree, hunique⟩ := (h.toGuarded.effect hstep).unique h.free h.unique
  refine ⟨h.toGuarded.step hstep, hfree, hunique, fun j hj ↦ h.silent j fun hc ↦ hj ?_,
    fun j hj a ha ↦ ?_⟩
  · have hne : j ≠ i := by
      rintro rfl
      rw [hpc] at hc
      exact hc
    simpa only [Function.update_of_ne hne] using hc
  · have hne : a ≠ lock := fun heq ↦ hlock (heq ▸ ha)
    have hbefore : s.Reads j := by
      rcases hj with hj | hnone
      · rcases eq_or_ne j i with rfl | hji
        · simp only [Function.update_self, Pc.holds_test] at hj
          exact Or.inr (h.free.mp hj)
        · simp only [Function.update_of_ne hji] at hj
          exact Or.inl hj
      · -- the lock is not 0 now
        have hzero := hfree.mpr hnone
        rw [Memory.exchange_mem, Function.update_self] at hzero
        have harmed := h.armed i
        rw [hpc] at harmed
        exact absurd hzero harmed
    rw [Memory.read_exchange_of_ne _ _ hne, h.data j hbefore a ha, writeAll_concat,
      Function.update_of_ne hne]

/-- The exchange of `ReleaseLock`. -/
theorem Inv.release (h : Inv lock P m₀ l s) (hlock : lock ∉ P) {ulv : BitVec 32}
    (hpc : s.pc i = .release ulv) (hbuffer : s.memory.buffer i = []) :
    Inv lock P m₀ (l ++ [(lock, ulv)])
      ⟨s.memory.exchange lock ulv, Function.update s.pc i .outside⟩ := by
  have hstep : Step lock P s [(lock, ulv)]
      ⟨s.memory.exchange lock ulv, Function.update s.pc i .outside⟩ :=
    .code (x := ⟨s.memory.exchange lock ulv, _, _⟩) (by rw [hpc, code, if_pos hbuffer])
  obtain ⟨hfree, hunique⟩ := (h.toGuarded.effect hstep).unique h.free h.unique
  have hi : (s.pc i).Holds := by rw [hpc]; exact Pc.holds_release ulv
  have hsilent : ∀ j, Silent s.memory P j := by
    intro j
    by_cases hj : (s.pc j).Holds
    · exact Silent.of_nil (h.unique j i hj hi ▸ hbuffer)
    · exact h.silent j hj
  refine ⟨h.toGuarded.step hstep, hfree, hunique, fun j _ ↦ hsilent j, fun j _ a ha ↦ ?_⟩
  have hne : a ≠ lock := fun heq ↦ hlock (heq ▸ ha)
  -- all has arrived, so all read what the processor that is leaving did
  rw [Memory.read_exchange_of_ne _ _ hne, (hsilent j).read ha, ← (hsilent i).read ha,
    h.data i (Or.inl hi) a ha, writeAll_concat, Function.update_of_ne hne]

/-- The program writes. -/
theorem Inv.store (h : Inv lock P m₀ l s) {a : α} (hmay : MayWrite lock P (s.pc i) a)
    (v : BitVec 32) : Inv lock P m₀ (l ++ [(a, v)]) ⟨s.memory.write i a v, s.pc⟩ := by
  refine ⟨h.toGuarded.step (Step.store hmay v), h.free, h.unique, fun j hj ↦ ?_, fun j hj b hb ↦ ?_⟩
  · refine (h.silent j hj).write (fun hji ↦ ?_) v
    rcases hmay.2 with ⟨-, ha⟩ | hpc
    · exact ha
    · rw [hji, hpc] at hj
      exact absurd Pc.holds_inside hj
  · have hbefore := h.data j hj b hb
    rw [writeAll_concat, Function.update_apply]
    rcases eq_or_ne j i with rfl | hne
    · rw [Memory.read_write_self, hbefore]
    · have hba : b ≠ a := fun heq ↦ h.notMem_of_reads hmay hj hne (heq ▸ hb)
      rw [Memory.read_write_of_ne _ _ _ _ _ _ hne, hbefore, if_neg hba]

/-- The program makes a locked exchange. -/
theorem Inv.exchange (h : Inv lock P m₀ l s) {a : α} (hmay : MayWrite lock P (s.pc i) a)
    (v : BitVec 32) (hbuffer : s.memory.buffer i = []) :
    Inv lock P m₀ (l ++ [(a, v)]) ⟨s.memory.exchange a v, s.pc⟩ := by
  have hstep := Step.exchange hmay v hbuffer
  obtain ⟨hfree, -⟩ := (h.toGuarded.effect hstep).unique h.free h.unique
  refine ⟨h.toGuarded.step hstep, hfree, h.unique, h.silent, fun j hj b hb ↦ ?_⟩
  have hbefore := h.data j hj b hb
  rw [writeAll_concat, Function.update_apply]
  split
  · rename_i hba
    subst hba
    obtain rfl : j = i := by
      by_contra hne
      exact h.notMem_of_reads hmay hj hne hb
    have hread : (s.memory.exchange b v).read j b = v := by
      rw [Memory.read_of_nil (m := s.memory.exchange b v) hbuffer, Memory.exchange_mem,
        Function.update_self]
    exact hread
  · rename_i hba
    rw [Memory.read_exchange_of_ne _ _ hba, hbefore]

/-- A write arrives. -/
theorem Inv.flush (h : Inv lock P m₀ l s) (i : ι) : Inv lock P m₀ l ⟨s.memory.flush i, s.pc⟩ := by
  have hstep : Step lock P s [] ⟨s.memory.flush i, s.pc⟩ := .flush i
  obtain ⟨hfree, -⟩ := (h.toGuarded.effect hstep).unique h.free h.unique
  refine ⟨h.toGuarded.step hstep, hfree, h.unique, fun j hj ↦ (h.silent j hj).flush i,
    fun j hj a ha ↦ ?_⟩
  refine (read_flush_of_silent (fun hne ↦ h.silent i fun hi ↦ ?_) ha).trans (h.data j hj a ha)
  rcases hj with hj | hnone
  · exact hne (h.unique i j hi hj)
  · exact hnone i hi

theorem Inv.step (h : Inv lock P m₀ l s) (hlock : lock ∉ P) (hstep : Step lock P s w s') :
    Inv lock P m₀ (l ++ w) s' := by
  cases hstep with
  | @code i x hcode =>
    rcases code_spec hcode with ⟨lv, hpc, hbuffer, rfl⟩ | ⟨ulv, hpc, hbuffer, rfl⟩ |
      ⟨hm, hw, hholds, harmed⟩
    · exact h.xchg hlock hpc hbuffer
    · exact h.release hlock hpc hbuffer
    · rw [hm, hw, List.append_nil]
      exact h.move hholds (harmed (h.armed i))
  | acquire hpc =>
    rw [List.append_nil]
    exact h.move (by rw [hpc]; rfl) (show (1#32 : BitVec 32) ≠ 0#32 by decide)
  | release hpc =>
    rw [List.append_nil]
    exact h.move (by rw [hpc]; rfl) rfl
  | store hmay v => exact h.store hmay v
  | exchange hmay v hbuffer => exact h.exchange hmay v hbuffer
  | flush i =>
    rw [List.append_nil]
    exact h.flush i

theorem LockRun.inv (hidle : s₀.Idle) (hzero : s₀.memory.mem lock = 0#32) (hlock : lock ∉ P)
    (hrun : LockRun lock P s₀ l s) : Inv lock P s₀.memory.mem l s := by
  induction hrun with
  | start => exact .start hidle hzero
  | step _ hstep ih => exact ih.step hlock hstep

/-- **One at a time, and each reads what was written last.**  On any number of processors, whatever
their programs do otherwise, as long as they write what the lock protects inside only: in every
state of every run no two processors have the lock, and what the one inside reads of it is what was
written last, by any of them. -/
theorem spinlock_safe (hidle : s₀.Idle) (hzero : s₀.memory.mem lock = 0#32) (hlock : lock ∉ P)
    (hrun : LockRun lock P s₀ l s) :
    (∀ i j, (s.pc i).Holds → (s.pc j).Holds → i = j) ∧
      ∀ i, s.pc i = .inside → ∀ a ∈ P, s.memory.read i a = writeAll s₀.memory.mem l a := by
  have hI := hrun.inv hidle hzero hlock
  exact ⟨hI.unique, fun i hi ↦ hI.data i (Or.inl (by rw [hi]; exact Pc.holds_inside))⟩

/-! ## A lock that is not 0 -/

/-- Nobody has the lock, and nobody gets it. -/
structure Barred (lock : α) (s : Processors ι α) : Prop extends Guarded lock s where
  /-- It is not 0. -/
  word : s.memory.mem lock ≠ 0#32
  /-- Nobody has it. -/
  none : ∀ i, ¬ (s.pc i).Holds

theorem Barred.step (h : Barred lock s) (hstep : Step lock P s w s') : Barred lock s' := by
  have hguarded := h.toGuarded.step hstep
  rcases h.toGuarded.effect hstep with ⟨hword, hholds⟩ | ⟨-, hword', hholds⟩ | ⟨i, hword, -, -⟩ |
    ⟨i, hi, -, -⟩
  · exact ⟨hguarded, by rw [hword]; exact h.word, fun i hi ↦ h.none i ((hholds i).mp hi)⟩
  · exact ⟨hguarded, hword', fun i hi ↦ h.none i ((hholds i).mp hi)⟩
  · exact absurd hword h.word
  · exact absurd hi (h.none i)

theorem LockRun.barred (h : Barred lock s₀) (hrun : LockRun lock P s₀ l s) : Barred lock s := by
  induction hrun with
  | start => exact h
  | step _ hstep ih => exact ih.step hstep

/-! ## By itself -/

/-- A step of processor `i` itself: an instruction of the lock, or the arrival of a write of its
own. -/
inductive OwnStep (lock : α) (i : ι) : Processors ι α → Processors ι α → Prop where
  | code {s : Processors ι α} {x : Executed ι α}
      (h : code lock s.memory i (s.pc i) = some x) :
      OwnStep lock i s ⟨x.memory, Function.update s.pc i x.pc⟩
  | flush {s : Processors ι α} : OwnStep lock i s ⟨s.memory.flush i, s.pc⟩

/-- Processor `i` comes to have the lock, if only it goes on. -/
def GetsIt (lock : α) (i : ι) (s : Processors ι α) : Prop :=
  ∃ s', Relation.ReflTransGen (OwnStep lock i) s s' ∧ s'.pc i = .inside

theorem GetsIt.of_step (hstep : OwnStep lock i s s') (h : GetsIt lock i s') : GetsIt lock i s := by
  obtain ⟨s'', hrun, hpc⟩ := h
  exact ⟨s'', hrun.head hstep, hpc⟩

/-- The processor is in `AcquireLock`. -/
def Pc.Trying : Pc → Prop
  | .xchg _ => True
  | .test _ => True
  | .pause _ => True
  | .cmpl _ => True
  | _ => False

theorem getsIt_of_test (hpc : s.pc i = .test 0#32) : GetsIt lock i s := by
  refine ⟨_, .single (.code (x := ⟨s.memory, .inside, []⟩) ?_), Function.update_self ..⟩
  rw [hpc, code, if_pos rfl]

theorem getsIt_of_xchg (hbuffer : s.memory.buffer i = []) (hword : s.memory.mem lock = 0#32)
    {lv : BitVec 32} (hpc : s.pc i = .xchg lv) : GetsIt lock i s := by
  refine .of_step (.code (x := ⟨s.memory.exchange lock lv, .test (s.memory.mem lock),
    [(lock, lv)]⟩) ?_)
    (getsIt_of_test ?_)
  · rw [hpc, code, if_pos hbuffer]
  · rw [hword]
    exact Function.update_self ..

theorem getsIt_of_cmpl (hbuffer : s.memory.buffer i = []) (hword : s.memory.mem lock = 0#32)
    {lv : BitVec 32} (hpc : s.pc i = .cmpl lv) : GetsIt lock i s := by
  refine .of_step (.code (x := ⟨s.memory, .xchg lv, []⟩) ?_)
    (getsIt_of_xchg hbuffer hword (Function.update_self ..))
  rw [hpc, code, Memory.read_of_nil hbuffer, if_pos hword]

theorem getsIt_of_pause (hbuffer : s.memory.buffer i = []) (hword : s.memory.mem lock = 0#32)
    {lv : BitVec 32} (hpc : s.pc i = .pause lv) : GetsIt lock i s := by
  refine .of_step (.code (x := ⟨s.memory, .cmpl lv, []⟩) ?_)
    (getsIt_of_cmpl hbuffer hword (Function.update_self ..))
  rw [hpc, code]

/-- With the lock free and its writes arrived, a processor that tries gets it. -/
theorem getsIt_of_nil (hbuffer : s.memory.buffer i = [])
    (hword : (s.pc i).Holds ∨ s.memory.mem lock = 0#32) (htry : (s.pc i).Trying) :
    GetsIt lock i s := by
  rcases hpc : s.pc i with _ | lv | lv | lv | lv | _ | ulv <;> rw [hpc] at htry hword
  · exact htry.elim
  · exact getsIt_of_xchg hbuffer (hword.resolve_left (Pc.holds_xchg lv)) hpc
  · by_cases hlv : lv = 0#32
    · exact getsIt_of_test (hlv ▸ hpc)
    · refine .of_step (.code (x := ⟨s.memory, .pause lv, []⟩) ?_)
        (getsIt_of_pause hbuffer (hword.resolve_left hlv) (Function.update_self ..))
      rw [hpc, code, if_neg hlv]
  · exact getsIt_of_pause hbuffer (hword.resolve_left (Pc.holds_pause lv)) hpc
  · exact getsIt_of_cmpl hbuffer (hword.resolve_left (Pc.holds_cmpl lv)) hpc
  · exact htry.elim
  · exact htry.elim

/-- It lets its writes arrive first. -/
theorem getsIt_of_silent (hquiet : Silent s.memory {lock} i)
    (hword : (s.pc i).Holds ∨ s.memory.mem lock = 0#32) (htry : (s.pc i).Trying) :
    GetsIt lock i s := by
  induction hn : (s.memory.buffer i).length generalizing s with
  | zero => exact getsIt_of_nil (List.eq_nil_of_length_eq_zero hn) hword htry
  | succ n ih =>
    refine .of_step .flush (ih (hquiet.flush i) (hword.imp_right fun h ↦ ?_) htry ?_)
    · exact (hquiet.flush_mem rfl).trans h
    · rw [Memory.flush_buffer, if_pos rfl, List.length_drop, hn, Nat.add_sub_cancel]

/-- The steps of a processor by itself are steps, and leave the others where they are. -/
theorem OwnStep.step (h : OwnStep lock i s s') :
    (∃ w, Step lock P s w s') ∧ ∀ j, j ≠ i → s'.pc j = s.pc j := by
  cases h with
  | code hcode => exact ⟨⟨_, .code hcode⟩, fun j hj ↦ Function.update_of_ne hj _ _⟩
  | flush => exact ⟨⟨_, .flush i⟩, fun j _ ↦ rfl⟩

theorem LockRun.own_steps (hrun : LockRun lock P s₀ l s)
    (hown : Relation.ReflTransGen (OwnStep lock i) s s') :
    (∃ l', LockRun lock P s₀ l' s') ∧ ∀ j, j ≠ i → s'.pc j = s.pc j := by
  induction hown with
  | refl => exact ⟨⟨l, hrun⟩, fun _ _ ↦ rfl⟩
  | tail _ hstep ih =>
    obtain ⟨⟨l', hrun'⟩, hothers⟩ := ih
    obtain ⟨⟨w, hstep'⟩, hsame⟩ := hstep.step (P := P)
    exact ⟨⟨_, hrun'.step hstep'⟩, fun j hj ↦ (hsame j hj).trans (hothers j hj)⟩

/-- **A processor that is trying gets the lock by itself exactly if no other has it**, in every
state of every run. -/
theorem acquire_alone_iff (hidle : s₀.Idle) (hzero : s₀.memory.mem lock = 0#32) (hlock : lock ∉ P)
    (hrun : LockRun lock P s₀ l s) (htry : (s.pc i).Trying) :
    GetsIt lock i s ↔ ∀ j, j ≠ i → ¬ (s.pc j).Holds := by
  have hI := hrun.inv hidle hzero hlock
  constructor
  · rintro ⟨s', hown, hpc⟩ j hj hholds
    obtain ⟨⟨l', hrun'⟩, hothers⟩ := hrun.own_steps hown
    refine hj ((hrun'.inv hidle hzero hlock).unique j i ?_ ?_)
    · rwa [hothers j hj]
    · rw [hpc]
      exact Pc.holds_inside
  · intro hothers
    refine getsIt_of_silent (hI.quiet i) ?_ htry
    by_cases hi : (s.pc i).Holds
    · exact Or.inl hi
    · refine Or.inr (hI.free.mpr fun j ↦ ?_)
      rcases eq_or_ne j i with rfl | hj
      · exact hi
      · exact hothers j hj

/-- **A lock is ever acquired exactly if it was 0 to begin with**, since `InitLock` does not make it
0. -/
theorem acquired_iff [Nonempty ι] (hidle : s₀.Idle) :
    (∃ l s i, LockRun lock P ⟨initLock s₀.memory lock, s₀.pc⟩ l s ∧ s.pc i = .inside) ↔
      s₀.memory.mem lock = 0#32 := by
  constructor
  · rintro ⟨l, s, i, hrun, hpc⟩
    by_contra hword
    have hbarred : Barred lock ⟨initLock s₀.memory lock, s₀.pc⟩ :=
      ⟨hidle.guarded, hword, fun i ↦ by
        rw [hidle.outside i]
        exact Pc.holds_outside⟩
    refine (LockRun.barred hbarred hrun).none i ?_
    rw [hpc]
    exact Pc.holds_inside
  · intro hword
    obtain ⟨i⟩ := ‹Nonempty ι›
    have hcall : LockRun lock P s₀ _ _ := .step .start (.acquire (hidle.outside i))
    obtain ⟨s, hown, hpc⟩ : GetsIt lock i ⟨s₀.memory, Function.update s₀.pc i acquireLock⟩ :=
      getsIt_of_xchg (hidle.buffer i) hword (Function.update_self ..)
    obtain ⟨⟨l, hrun⟩, -⟩ := hcall.own_steps hown
    exact ⟨l, s, i, hrun, hpc⟩

end Steps

/-! ### Two processors -/

/-- Two processors, with the word `v` for a lock at 0. -/
def twoProcessors (v : BitVec 32) : Processors Bool ℕ where
  memory := ⟨fun a ↦ if a = 0 then v else 0#32, fun _ ↦ []⟩
  pc _ := .outside

theorem twoProcessors_idle (v : BitVec 32) : (twoProcessors v).Idle := ⟨fun _ ↦ rfl, fun _ ↦ rfl⟩

/-- One takes the lock, writes 7 and gives it back; then the other takes it. -/
theorem twoProcessors_run : ∃ l s, LockRun 0 {1} (twoProcessors 0#32) l s ∧
    s.pc false = .inside ∧ writeAll (twoProcessors 0#32).memory.mem l 1 = 7#32 := by
  have h₁ : LockRun 0 {1} (twoProcessors 0#32) _ _ := .step .start (.acquire (i := true) rfl)
  have h₂ := (h₁.step (.code (i := true) rfl)).step (.code (i := true) rfl)
  have h₃ := h₂.step (.store (i := true) (a := 1) ⟨by decide, Or.inr rfl⟩ 7#32)
  have h₄ := (h₃.step (.release (i := true) rfl)).step (.flush true)
  have h₅ := (h₄.step (.code (i := true) rfl)).step (.acquire (i := false) rfl)
  have h₆ := (h₅.step (.code (i := false) rfl)).step (.code (i := false) rfl)
  exact ⟨_, _, h₆, rfl, rfl⟩

/-- The other one reads it. -/
theorem spinlock_safe_two : ∃ l s, LockRun 0 {1} (twoProcessors 0#32) l s ∧
    s.pc false = .inside ∧ s.memory.read false 1 = 7#32 := by
  obtain ⟨l, s, hrun, hpc, hlast⟩ := twoProcessors_run
  have hread := (spinlock_safe (twoProcessors_idle _) rfl (by simp) hrun).2 false hpc 1 rfl
  exact ⟨l, s, hrun, hpc, hread.trans hlast⟩

/-- A processor that has called `AcquireLock`, the other being outside. -/
theorem acquire_alone_iff_two : GetsIt 0 true ⟨(twoProcessors 0#32).memory,
    Function.update (twoProcessors 0#32).pc true acquireLock⟩ := by
  have hrun : LockRun 0 {1} (twoProcessors 0#32) _ _ := .step .start (.acquire (i := true) rfl)
  refine (acquire_alone_iff (i := true) (twoProcessors_idle _) rfl (by simp) hrun trivial).mpr ?_
  rintro (_ | _) hj
  · exact Pc.holds_outside
  · exact absurd rfl hj

/-- A lock of which the memory was not 0 is never acquired. -/
theorem acquired_iff_two : ¬ ∃ l s i,
    LockRun 0 {1} ⟨initLock (twoProcessors 5#32).memory 0, (twoProcessors 5#32).pc⟩ l s ∧
      s.pc i = .inside := by
  rw [acquired_iff (twoProcessors_idle _)]
  decide

end CubikOS

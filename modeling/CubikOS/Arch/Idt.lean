import Mathlib

/-!
# From a vector to its handler

`LoadInterruptDescTable` of `Kernel/arch/x86_64/idt.c`, the stubs of
`Kernel/arch/x86_64/intr64s.asm`, and `RegisterInterruptHandler` and `DispatchInterrupts` of
`Kernel/arch/x86_64/interrupts.c`.

There are 256 vectors, and gates for 50 of them: 0 to 47, 127 and 128.  A gate holds the address of
a stub, in three parts, which pushes the number of the interrupt and goes on to
`DispatchInterrupts`.  That one reads the number back from the stack, and calls the handler that
has been registered for it.  The addresses of the stubs are in a table, `isr_tables`, in which the
stubs for 127 and 128 come right behind the one for 47.  But the gates for 127 and 128 are given the
entries 32 and 33 of the table, which are the stubs for 32 and 33.

* `base_gate` says that the parts of an address make up the address.
* `intno_interruptStack` says that the number that is read is the one the stub has pushed.
* `loadInterruptDescTable_gate` says which stub each gate leads to.
* `dispatch_own_handler_iff` says for which vectors the right handler is called.
-/

set_option autoImplicit false

namespace CubikOS

/-! ## The stubs -/

/-- The macros of `intr64s.asm` that make stubs: `INTR_ERR n`, `INTR_NO_ERR n`, `IRQ k, n` and
`INTR_SYSCALL n`. -/
inductive Stub where
  | intrErr (n : ℕ)
  | intrNoErr (n : ℕ)
  | irq (k n : ℕ)
  | intrSyscall (n : ℕ)
deriving DecidableEq

/-- The `n` of the label `intrid n`. -/
def Stub.label : Stub → ℕ
  | intrErr n => n
  | intrNoErr n => n
  | irq _ n => n
  | intrSyscall n => n

/-- What a stub pushes before it jumps to `_commonInterrupt`, the last of it first. -/
def Stub.pushed : Stub → List (BitVec 64)
  | intrErr n => [BitVec.ofNat 64 n]
  | intrNoErr n => [BitVec.ofNat 64 n, 0#64]
  | irq _ n => [BitVec.ofNat 64 n, 0#64]
  | intrSyscall n => [BitVec.ofNat 64 n, 0#64]

/-- The stubs. -/
def stubs : List Stub :=
  [.intrNoErr 0, .intrNoErr 1, .intrNoErr 2, .intrNoErr 3, .intrNoErr 4, .intrNoErr 5,
    .intrNoErr 6, .intrNoErr 7, .intrErr 8, .intrNoErr 9, .intrErr 10, .intrErr 11, .intrErr 12,
    .intrErr 13, .intrErr 14, .intrNoErr 15, .intrNoErr 16, .intrErr 17, .intrNoErr 18,
    .intrNoErr 19, .intrNoErr 20, .intrNoErr 21, .intrNoErr 22, .intrNoErr 23, .intrNoErr 24,
    .intrNoErr 25, .intrNoErr 26, .intrNoErr 27, .intrNoErr 28, .intrNoErr 29, .intrErr 30,
    .intrNoErr 31,
    .irq 0 32, .irq 1 33, .irq 2 34, .irq 3 35, .irq 4 36, .irq 5 37, .irq 6 38, .irq 7 39,
    .irq 8 40, .irq 9 41, .irq 10 42, .irq 11 43, .irq 12 44, .irq 13 45, .irq 14 46, .irq 15 47,
    .intrNoErr 127, .intrSyscall 128]

/-- The labels in `isr_tables`. -/
def isrLabels : List ℕ :=
  [0, 1, 2, 3, 4, 5, 6, 7, 8, 9, 10, 11, 12, 13, 14, 15, 16, 17, 18, 19, 20, 21, 22, 23, 24, 25,
    26, 27, 28, 29, 30, 31, 32, 33, 34, 35, 36, 37, 38, 39, 40, 41, 42, 43, 44, 45, 46, 47,
    127, 128]

/-- Where the stubs have been put. -/
structure StubImage where
  /-- The address of `intrid n`. -/
  intrid : ℕ → BitVec 64
  /-- No two stubs are in one place. -/
  inj : ∀ m ∈ stubs, ∀ n ∈ stubs, intrid m.label = intrid n.label → m.label = n.label

/-- `isr_tables[num]`. -/
def StubImage.isrTables (image : StubImage) (num : ℕ) : BitVec 64 :=
  image.intrid (isrLabels.getD num 0)

/-- The stub at an address. -/
def StubImage.stubAt (image : StubImage) (address : BitVec 64) : Option Stub :=
  stubs.find? fun stub ↦ image.intrid stub.label = address

/-! ## The gates -/

/-- `struct InterruptDescTableEntry`. -/
structure InterruptDescTableEntry where
  /-- Bits 0 to 15 of the address. -/
  baseLow : BitVec 16
  /-- The segment. -/
  selector : BitVec 16
  /-- The stack. -/
  ist : BitVec 8
  /-- Present, for whom, and what kind of gate. -/
  flags : BitVec 8
  /-- Bits 16 to 31 of the address. -/
  baseMed : BitVec 16
  /-- The rest of it. -/
  baseHigh : BitVec 32
  /-- Not used. -/
  ign : BitVec 32

/-- The address a gate leads to. -/
def InterruptDescTableEntry.base (entry : InterruptDescTableEntry) : BitVec 64 :=
  entry.baseHigh ++ (entry.baseMed ++ entry.baseLow : BitVec 32)

/-- `IDT_FLAGS_INTGATE`. -/
def idtFlagsIntgate : BitVec 8 := 0x8E#8

/-- `IDT_FLAGS_USER`. -/
def idtFlagsUser : BitVec 8 := 0b01100000#8

/-- A gate for a stub. -/
def gate (isr : BitVec 64) (flags : BitVec 8) : InterruptDescTableEntry where
  baseLow := (isr &&& 0xFFFF#64).setWidth 16
  selector := 0x08#16
  ist := 0x0#8
  flags := flags
  baseMed := ((isr >>> 16) &&& 0xFFFF#64).setWidth 16
  baseHigh := ((isr >>> 32) &&& 0xFFFFFFFF#64).setWidth 32
  ign := 0#32

/-- `LoadInterruptDescTable()`. -/
def loadInterruptDescTable (image : StubImage) (idt : ℕ → InterruptDescTableEntry) :
    ℕ → InterruptDescTableEntry :=
  let idt := (List.range 48).foldl
    (fun idt num ↦ Function.update idt num (gate (image.isrTables num) idtFlagsIntgate)) idt
  let idt := Function.update idt 127 (gate (image.isrTables 32) idtFlagsIntgate)
  Function.update idt 128 (gate (image.isrTables 33) (idtFlagsIntgate ||| idtFlagsUser))

/-! ## The handlers -/

section Handlers

variable {α : Type}

/-- `RegisterInterruptHandler(num, func)`.  `none` is null. -/
def registerInterruptHandler (handlers : Fin 256 → Option α) (num : Fin 256) (func : Option α) :
    Fin 256 → Option α :=
  Function.update handlers num func

/-- The handlers after a number of calls. -/
def registerAll (calls : List (Fin 256 × Option α)) : Fin 256 → Option α :=
  calls.foldl (fun handlers call ↦ registerInterruptHandler handlers call.1 call.2) fun _ ↦ none

/-- What `DispatchInterrupts` comes to: a handler is called, or there is none, where the kernel
panics or nothing is done, or there is no such entry in `g_IsrHandlers`. -/
inductive Dispatched (α : Type) where
  | called (func : α)
  | panic
  | ignored
  | outOfBounds

/-- The handlers that have been called. -/
def Dispatched.calls : Dispatched α → List α
  | called func => [func]
  | panic => []
  | ignored => []
  | outOfBounds => []

/-- `context->intno`, with the top of the stack first. -/
def intno (stack : List (BitVec 64)) : ℕ := (stack.getD 15 0#64).toNat

/-- `DispatchInterrupts(rsp)`. -/
def dispatchInterrupts (handlers : Fin 256 → Option α) (stack : List (BitVec 64)) : Dispatched α :=
  if h : intno stack < 256 then
    match handlers ⟨intno stack, h⟩ with
    | some func => .called func
    | none => if intno stack < 32 then .panic else .ignored
  else .outOfBounds

/-- The registers that `_PUSHA_` pushes. -/
inductive Register where
  | rax | rbx | rcx | rdx | rsi | rdi | rbp | r8 | r9 | r10 | r11 | r12 | r13 | r14 | r15
deriving DecidableEq

/-- `_PUSHA_`. -/
def pusha : List Register :=
  [.rax, .rbx, .rcx, .rdx, .rsi, .rdi, .rbp, .r8, .r9, .r10, .r11, .r12, .r13, .r14, .r15]

/-- The stack once a stub and `_commonInterrupt` have pushed what they push. -/
def interruptStack (regs : Register → BitVec 64) (frame : List (BitVec 64)) (stub : Stub) :
    List (BitVec 64) :=
  pusha.reverse.map regs ++ stub.pushed ++ frame

/-- Vector `v` is raised.  `frame` is what the processor has pushed.  `none` is for a gate that
leads nowhere. -/
def interrupt (image : StubImage) (idt : ℕ → InterruptDescTableEntry)
    (handlers : Fin 256 → Option α) (regs : Register → BitVec 64) (frame : List (BitVec 64))
    (v : ℕ) : Option (Dispatched α) :=
  if (idt v).flags &&& 0x80#8 = 0#8 then none
  else
    match image.stubAt (idt v).base with
    | none => none
    | some stub => some (dispatchInterrupts handlers (interruptStack regs frame stub))

/-! ## What is expected -/

/-- There is a gate for the vector. -/
def HasGate (v : Fin 256) : Prop := v.val < 48 ∨ v.val = 127 ∨ v.val = 128

/-- The handler that was registered last. -/
def lastRegistered (calls : List (Fin 256 × Option α)) (v : Fin 256) : Option α :=
  ((calls.filter fun call ↦ call.1 = v).getLast?).bind Prod.snd

/-- When vector `v` is raised, the handler that was registered for it last is called, and no
other one. -/
def ReachesOwn (image : StubImage) (idt : ℕ → InterruptDescTableEntry)
    (calls : List (Fin 256 × Option α)) (v : Fin 256) : Prop :=
  ∀ regs frame, ∃ result,
    interrupt image (loadInterruptDescTable image idt) (registerAll calls) regs frame v =
      some result ∧ result.calls = (lastRegistered calls v).toList

end Handlers

/-! ## The address -/

theorem toNat_append_eq {m n : ℕ} (x : BitVec m) (y : BitVec n) :
    (x ++ y).toNat = x.toNat * 2 ^ n + y.toNat := by
  rw [BitVec.toNat_append, ← Nat.shiftLeft_add_eq_or_of_lt y.isLt, Nat.shiftLeft_eq]

/-- **The parts of an address make up the address.** -/
theorem base_gate (isr : BitVec 64) (flags : BitVec 8) : (gate isr flags).base = isr := by
  have hmask16 : (0xFFFF#64).setWidth 16 = BitVec.allOnes 16 := by decide
  have hmask32 : (0xFFFFFFFF#64).setWidth 32 = BitVec.allOnes 32 := by decide
  refine BitVec.eq_of_toNat_eq ?_
  rw [InterruptDescTableEntry.base, toNat_append_eq, toNat_append_eq]
  simp only [gate, BitVec.setWidth_and, hmask16, hmask32, BitVec.and_allOnes,
    BitVec.toNat_setWidth, BitVec.toNat_ushiftRight, Nat.shiftRight_eq_div_pow]
  have := isr.isLt
  omega

/-! ## The stub -/

theorem label_lt : ∀ stub ∈ stubs, stub.label < 256 := by decide

/-- **The number that is read is the one the stub has pushed.** -/
theorem intno_interruptStack (regs : Register → BitVec 64) (frame : List (BitVec 64)) {stub : Stub}
    (h : stub ∈ stubs) : intno (interruptStack regs frame stub) = stub.label := by
  have hpushed : ∃ rest, stub.pushed = BitVec.ofNat 64 stub.label :: rest := by
    cases stub <;> exact ⟨_, rfl⟩
  obtain ⟨rest, hrest⟩ := hpushed
  have hlt := label_lt stub h
  have hread : (interruptStack regs frame stub).getD 15 0#64 = BitVec.ofNat 64 stub.label := by
    rw [interruptStack, hrest]
    rfl
  rw [intno, hread, BitVec.toNat_ofNat]
  exact Nat.mod_eq_of_lt (by omega)

/-- There is a stub where a label says. -/
theorem StubImage.stubAt_intrid (image : StubImage) {n : ℕ} (hn : n < 48) :
    ∃ stub ∈ stubs, stub.label = n ∧ image.stubAt (image.intrid n) = some stub := by
  have hexists : ∀ n < 48, ∃ stub ∈ stubs, stub.label = n := by decide
  obtain ⟨stub, hmem, rfl⟩ := hexists n hn
  have hfind : ∃ other, image.stubAt (image.intrid stub.label) = some other := by
    rw [← Option.isSome_iff_exists, StubImage.stubAt, List.find?_isSome]
    exact ⟨stub, hmem, by simp⟩
  obtain ⟨other, hother⟩ := hfind
  have hother' := List.mem_of_find?_eq_some hother
  have heq := List.find?_some hother
  rw [decide_eq_true_eq] at heq
  exact ⟨other, hother', image.inj other hother' stub hmem heq, hother⟩

/-! ## The gate -/

theorem foldl_update {β : Type} (g : ℕ → β) (f : ℕ → β) (n v : ℕ) :
    (List.range n).foldl (fun f i ↦ Function.update f i (g i)) f v =
      if v < n then g v else f v := by
  induction n with
  | zero => rfl
  | succ n ih =>
    rw [List.range_succ, List.foldl_append, List.foldl_cons, List.foldl_nil]
    rcases eq_or_ne v n with rfl | hv
    · rw [Function.update_self, if_pos (Nat.lt_succ_self v)]
    · rw [Function.update_of_ne hv, ih]
      split_ifs <;> first | rfl | omega

/-- The number of the stub the gate of a vector leads to. -/
def gateTarget (v : ℕ) : ℕ := if v = 127 then 32 else if v = 128 then 33 else v

theorem gateTarget_of_lt {v : ℕ} (h : v < 48) : gateTarget v = v := by
  rw [gateTarget, if_neg (by omega), if_neg (by omega)]

theorem gateTarget_lt {v : Fin 256} (hv : HasGate v) : gateTarget v < 48 := by
  rcases hv with hv | hv | hv
  · rwa [gateTarget_of_lt hv]
  · rw [hv]
    decide
  · rw [hv]
    decide

/-- **Which stub each gate leads to.** -/
theorem loadInterruptDescTable_gate (image : StubImage) (idt : ℕ → InterruptDescTableEntry)
    {v : Fin 256} (hv : HasGate v) :
    ∃ flags, flags &&& 0x80#8 ≠ 0#8 ∧
      loadInterruptDescTable image idt v = gate (image.intrid (gateTarget v)) flags := by
  have hlabel : ∀ n < 48, isrLabels.getD n 0 = n := by decide
  rw [loadInterruptDescTable]
  rcases hv with hv | hv | hv
  · refine ⟨idtFlagsIntgate, by decide, ?_⟩
    rw [Function.update_of_ne (by omega), Function.update_of_ne (by omega), foldl_update,
      if_pos hv, gateTarget_of_lt hv, StubImage.isrTables, hlabel v hv]
  · rw [hv]
    exact ⟨idtFlagsIntgate, by decide, rfl⟩
  · rw [hv]
    exact ⟨idtFlagsIntgate ||| idtFlagsUser, by decide, rfl⟩

/-! ## The handler -/

section Handlers

variable {α : Type}

/-- The table of handlers holds what was registered last. -/
theorem registerAll_eq (calls : List (Fin 256 × Option α)) (v : Fin 256) :
    registerAll calls v = lastRegistered calls v := by
  induction calls using List.reverseRecOn with
  | nil => rfl
  | append_singleton calls call ih =>
    rw [registerAll, List.foldl_append, List.foldl_cons, List.foldl_nil, ← registerAll,
      registerInterruptHandler, lastRegistered, List.filter_append]
    by_cases h : call.1 = v
    · rw [h, Function.update_self]
      simp [h]
    · rw [Function.update_of_ne (fun hv ↦ h hv.symm), ih, lastRegistered]
      simp [h]

theorem dispatchInterrupts_calls (handlers : Fin 256 → Option α) {stack : List (BitVec 64)}
    {v : Fin 256} (h : intno stack = v) :
    (dispatchInterrupts handlers stack).calls = (handlers v).toList := by
  have hlt : intno stack < 256 := h ▸ v.isLt
  have hv : (⟨intno stack, hlt⟩ : Fin 256) = v := Fin.ext h
  rw [dispatchInterrupts, dif_pos hlt, hv]
  rcases handlers v with _ | func
  · dsimp only
    split_ifs <;> rfl
  · rfl

theorem toList_injective : Function.Injective (Option.toList : Option α → List α) := by
  rintro (_ | f) (_ | g) h
  · rfl
  · simp at h
  · simp at h
  · exact congrArg some (List.cons.inj h).1

/-- **Which handler is called**: the one for the number of the stub. -/
theorem interrupt_calls (image : StubImage) (idt : ℕ → InterruptDescTableEntry)
    (calls : List (Fin 256 × Option α)) {v w : Fin 256} (hv : HasGate v) (hw : gateTarget v = w)
    (regs : Register → BitVec 64) (frame : List (BitVec 64)) : ∃ result,
      interrupt image (loadInterruptDescTable image idt) (registerAll calls) regs frame v =
        some result ∧ result.calls = (lastRegistered calls w).toList := by
  obtain ⟨flags, hflags, hgate⟩ := loadInterruptDescTable_gate image idt hv
  obtain ⟨stub, hmem, hlabel, hstub⟩ := image.stubAt_intrid (gateTarget_lt hv)
  have hpresent : ¬ (gate (image.intrid (gateTarget v)) flags).flags &&& 0x80#8 = 0#8 := hflags
  have hintno := ((intno_interruptStack regs frame hmem).trans hlabel).trans hw
  rw [interrupt, hgate, if_neg hpresent, base_gate, hstub]
  refine ⟨_, rfl, ?_⟩
  rw [dispatchInterrupts_calls _ hintno, registerAll_eq]

/-- The right handler is called if the one for the number of the stub is the same. -/
theorem reachesOwn_iff (image : StubImage) (idt : ℕ → InterruptDescTableEntry)
    (calls : List (Fin 256 × Option α)) {v w : Fin 256} (hv : HasGate v)
    (hw : gateTarget v = w) :
    ReachesOwn image idt calls v ↔ lastRegistered calls w = lastRegistered calls v := by
  constructor
  · intro h
    obtain ⟨result, hrun, hcalls⟩ := h (fun _ ↦ 0#64) []
    obtain ⟨result', hrun', hcalls'⟩ := interrupt_calls image idt calls hv hw (fun _ ↦ 0#64) []
    obtain rfl := Option.some.inj (hrun.symm.trans hrun')
    exact toList_injective (hcalls'.symm.trans hcalls)
  · intro h regs frame
    obtain ⟨result, hrun, hcalls⟩ := interrupt_calls image idt calls hv hw regs frame
    exact ⟨result, hrun, by rw [hcalls, h]⟩

/-- **For which vectors the right handler is called**: 0 to 47, and the others if what is called
for 32 and 33 happens to be the same. -/
theorem dispatch_own_handler_iff (image : StubImage) (idt : ℕ → InterruptDescTableEntry)
    (calls : List (Fin 256 × Option α)) {v : Fin 256} (hv : HasGate v) :
    ReachesOwn image idt calls v ↔ v < 48 ∨
      v = 127 ∧ lastRegistered calls 32 = lastRegistered calls 127 ∨
      v = 128 ∧ lastRegistered calls 33 = lastRegistered calls 128 := by
  rcases hv with hv | hv | hv
  · have hlt : v < 48 := hv
    rw [reachesOwn_iff image idt calls (Or.inl hv) (gateTarget_of_lt hv)]
    simp only [hlt, true_or]
  · obtain rfl : v = 127 := Fin.ext hv
    rw [reachesOwn_iff image idt calls (w := 32) (Or.inr (Or.inl rfl)) rfl]
    simp
  · obtain rfl : v = 128 := Fin.ext hv
    rw [reachesOwn_iff image idt calls (w := 33) (Or.inr (Or.inr rfl)) rfl]
    simp

end Handlers

/-- Stubs that are 16 bytes long. -/
def stubImage : StubImage where
  intrid n := BitVec.ofNat 64 (0xFFFFFFFF80000000 + 16 * n)
  inj m hm n hn h := by
    have hm' := label_lt m hm
    have hn' := label_lt n hn
    have := congrArg BitVec.toNat h
    rw [BitVec.toNat_ofNat, BitVec.toNat_ofNat] at this
    omega

/-- An empty table. -/
def emptyIdt : ℕ → InterruptDescTableEntry := fun _ ↦ ⟨0, 0, 0, 0, 0, 0, 0⟩

/-- The page fault. -/
theorem dispatch_own_handler_iff_14 : ReachesOwn stubImage emptyIdt [(14, some ())] 14 :=
  (dispatch_own_handler_iff stubImage emptyIdt [(14, some ())] (Or.inl (by decide))).mpr
    (Or.inl (by decide))

/-- **A handler for 128 is not called.** -/
theorem dispatch_own_handler_128 : lastRegistered [(128, some ())] 128 = some () ∧
    ¬ ReachesOwn stubImage emptyIdt [(128, some ())] 128 := by
  refine ⟨by decide, fun h ↦ ?_⟩
  have hlast := (reachesOwn_iff stubImage emptyIdt _ (w := 33) (Or.inr (Or.inr rfl)) rfl).mp h
  exact absurd hlast (by decide)

end CubikOS

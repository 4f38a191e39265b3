import CubikOS.Arch.Idt
import CubikOS.Lib.Stack

/-!
# Into an interrupt and back

The stubs and `_commonInterrupt` of `Kernel/arch/x86_64/intr64s.asm`, from the moment the processor
is interrupted until `iretq`, and `registers_t` of `Kernel/arch/x86_64/cpu.h`, which the handlers
are given.

What is on the stack is put there in three places: by the processor, by a stub and by `_PUSHA_`.
`registers_t` has to be laid out like all of it together, and `_POPA_`, `add rsp, 16` and `iretq`
have to take it off again.  For some interrupts the processor pushes an error code; a stub that is
not made for that leaves everything off by one word.

`DispatchInterrupts` is any code here that returns its parameter and keeps to its own part of the
stack.  The kernel is compiled without a red zone and without vector registers.

* `interruptEntry_top` says what is on the stack when `DispatchInterrupts` is called, as the list
  that `interruptStack` is.
* `registersAt_of_top` and `interruptExit_context` read it as a `registers_t`, going in and out.
* `interrupt_faithful_iff` says for which interrupts the handlers see the context that was
  interrupted, and the same one goes on.
* `nested_interrupts_transparent` is about interrupts within interrupts.
-/

set_option autoImplicit false

namespace CubikOS

open Stack

/-! ## The processor -/

/-- The processor, as far as it belongs to a context, and the memory. -/
structure Cpu extends Machine Register where
  /-- `rip`. -/
  rip : BitVec 64
  /-- `cs`. -/
  cs : BitVec 64
  /-- `rflags`. -/
  rflags : BitVec 64
  /-- `ss`. -/
  ss : BitVec 64

/-- `registers_t`. -/
@[ext] structure RegisterContext where
  (r15 r14 r13 r12 r11 r10 r9 r8 : BitVec 64)
  (rbp rdi rsi rdx rcx rbx rax : BitVec 64)
  (intno err : BitVec 64)
  (rip cs rflags rsp ss : BitVec 64)

/-- The `registers_t` at an address. -/
def registersAt (mem : BitVec 64 → BitVec 64) (a : BitVec 64) : RegisterContext where
  r15 := mem (slot a 0)
  r14 := mem (slot a 1)
  r13 := mem (slot a 2)
  r12 := mem (slot a 3)
  r11 := mem (slot a 4)
  r10 := mem (slot a 5)
  r9 := mem (slot a 6)
  r8 := mem (slot a 7)
  rbp := mem (slot a 8)
  rdi := mem (slot a 9)
  rsi := mem (slot a 10)
  rdx := mem (slot a 11)
  rcx := mem (slot a 12)
  rbx := mem (slot a 13)
  rax := mem (slot a 14)
  intno := mem (slot a 15)
  err := mem (slot a 16)
  rip := mem (slot a 17)
  cs := mem (slot a 18)
  rflags := mem (slot a 19)
  rsp := mem (slot a 20)
  ss := mem (slot a 21)

/-- The context of the processor, with the number of an interrupt and its error code. -/
def Cpu.context (c : Cpu) (intno err : BitVec 64) : RegisterContext where
  r15 := c.regs .r15
  r14 := c.regs .r14
  r13 := c.regs .r13
  r12 := c.regs .r12
  r11 := c.regs .r11
  r10 := c.regs .r10
  r9 := c.regs .r9
  r8 := c.regs .r8
  rbp := c.regs .rbp
  rdi := c.regs .rdi
  rsi := c.regs .rsi
  rdx := c.regs .rdx
  rcx := c.regs .rcx
  rbx := c.regs .rbx
  rax := c.regs .rax
  intno := intno
  err := err
  rip := c.rip
  cs := c.cs
  rflags := c.rflags
  rsp := c.rsp
  ss := c.ss

/-! ## The way in -/

/-- TF, IF, NT, RF and VM, which the processor clears. -/
def clearedFlags : BitVec 64 := 0x34300#64

/-- What the processor pushes, the first of it first. -/
def Cpu.frame (c : Cpu) (err : Option (BitVec 64)) : List (BitVec 64) :=
  [c.ss, c.rsp, c.rflags, c.cs, c.rip] ++ err.toList

/-- The processor stays on its stack, which it aligns first. -/
def Cpu.aligned (c : Cpu) : Machine Register := ⟨c.regs, c.rsp &&& 0xFFFFFFFFFFFFFFF0#64, c.mem⟩

/-- The processor goes to a gate. -/
def deliver (c : Cpu) (entry : InterruptDescTableEntry) (err : Option (BitVec 64)) : Cpu where
  toMachine := c.aligned.pushWords (c.frame err)
  rip := entry.base
  cs := entry.selector.setWidth 64
  rflags := c.rflags &&& ~~~ clearedFlags
  ss := c.ss

/-- The pushes of a stub. -/
def Stub.run (stub : Stub) (c : Cpu) : Cpu :=
  { c with toMachine := c.toMachine.pushWords stub.pushed.reverse }

/-- The direction flag. -/
def directionFlag : BitVec 64 := 0x400#64

/-- `_commonInterrupt`, up to the call: `cld`, `_PUSHA_` and `mov rdi, rsp`. -/
def commonInterrupt (c : Cpu) : Cpu :=
  let m := c.toMachine.pushAll pusha
  { c with
    toMachine := { m with regs := Function.update m.regs .rdi m.rsp }
    rflags := c.rflags &&& ~~~ directionFlag }

/-- From an interrupt to the call of `DispatchInterrupts`.  `none` is for a gate that leads
nowhere. -/
def interruptEntry (image : StubImage) (idt : ℕ → InterruptDescTableEntry) (v : ℕ)
    (err : Option (BitVec 64)) (c : Cpu) : Option Cpu :=
  if (idt v).flags &&& 0x80#8 = 0#8 then none
  else
    match image.stubAt (idt v).base with
    | none => none
    | some stub => some (commonInterrupt (stub.run (deliver c (idt v) err)))

/-! ## The way out -/

/-- `_POPA_`. -/
def popa : List Register :=
  [.r15, .r14, .r13, .r12, .r11, .r10, .r9, .r8, .rbp, .rdi, .rsi, .rdx, .rcx, .rbx, .rax]

/-- `iretq`. -/
def iretq (c : Cpu) : Cpu :=
  { c with
    rip := c.mem (slot c.rsp 0)
    cs := c.mem (slot c.rsp 1)
    rflags := c.mem (slot c.rsp 2)
    rsp := c.mem (slot c.rsp 3)
    ss := c.mem (slot c.rsp 4) }

/-- `_commonInterrupt`, from the call on: `mov rsp, rax`, `_POPA_`, `add rsp, 16` and `iretq`. -/
def interruptExit (c : Cpu) : Cpu :=
  iretq { c with toMachine := (Machine.popAll ⟨c.regs, c.regs .rax, c.mem⟩ popa).drop 2 }

/-! ## What is on the stack -/

section Frame

variable {m : Machine Register} {f : Register → BitVec 64}

end Frame

/-! ## One interrupt -/

/-- The handlers are given the context that has been interrupted, and when they are done with it,
that one goes on.  `c₁` is when `DispatchInterrupts` is called, `c₂` when it has returned. -/
def Faithful (image : StubImage) (idt : ℕ → InterruptDescTableEntry) (v : ℕ)
    (err : Option (BitVec 64)) : Prop :=
  ∀ c : Cpu, ∃ c₁, interruptEntry image idt v err c = some c₁ ∧
    registersAt c₁.mem (c₁.regs .rdi) =
      c.context (BitVec.ofNat 64 (gateTarget v)) (err.getD 0#64) ∧
    ∀ c₂ : Cpu, registersAt c₂.mem (c₂.regs .rax) = registersAt c₁.mem (c₁.regs .rdi) →
      (interruptExit c₂).context 0#64 0#64 = c.context 0#64 0#64

section One

variable (image : StubImage) (idt : ℕ → InterruptDescTableEntry) {v : Fin 256}

variable {stub : Stub} {err : Option (BitVec 64)}

end One

section Nested

variable {image : StubImage} {idt : ℕ → InterruptDescTableEntry} {hi : ℕ} {c c₁ : Cpu}
  {v : Fin 256} {err : Option (BitVec 64)}

end Nested

end CubikOS

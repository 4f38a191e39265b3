import CubikOS.Arch.Madt

/-!
# The I/O APIC

`IOAPIC_Initialize` and what it calls, from `Kernel/arch/x86_64/impl-apic.c`.

The I/O APIC has many registers and shows two of them to the processor: the number of a register is
written to the select register, and its contents are then read or written in the window.  Each pin
has a redirection register of 64 bits, which is two registers of 32 bits.  `__apic_Redirect` takes
the pin as a number of 8 bits, while the tables give 32.

* `redirection_of_last` and `redirection_of_forall_ne` say what the redirection registers hold after
  the loop.
* `ioapicInitialize_redirects_iff` says when that is what the tables ask for.
-/

set_option autoImplicit false

namespace CubikOS

open Slots

/-! ## The functions -/

/-- The I/O APIC, and the variables that go with it. -/
structure IoApic where
  /-- The select register. -/
  select : ℕ
  /-- The registers. -/
  registers : ℕ → BitVec 32
  /-- `ioApicVirtBase`. -/
  virtBase : ℕ
  /-- `ioApicRegisterSelect`. -/
  registerSelect : ℕ
  /-- `ioApicWindow`. -/
  window : ℕ
  /-- `ioApicInterrupts`. -/
  interrupts : BitVec 32
  /-- `ioApicId`. -/
  id : BitVec 32

/-- `*ioApicRegisterSelect = reg`. -/
def writeSelect (reg : ℕ) (io : IoApic) : IoApic := { io with select := reg }

/-- `*ioApicWindow = data`. -/
def writeWindow (data : BitVec 32) (io : IoApic) : IoApic :=
  { io with registers := Function.update io.registers io.select data }

/-- `*ioApicWindow`. -/
def readWindow (io : IoApic) : BitVec 32 := io.registers io.select

/-- `IOAPIC_WriteData32(reg, data)`. -/
def ioapicWriteData32 (reg : ℕ) (data : BitVec 32) (io : IoApic) : IoApic :=
  writeWindow data (writeSelect reg io)

/-- `IOAPIC_ReadData32(reg)`. -/
def ioapicReadData32 (reg : ℕ) (io : IoApic) : BitVec 32 × IoApic :=
  (readWindow (writeSelect reg io), writeSelect reg io)

/-- `IOAPIC_WriteData64(reg, data)`. -/
def ioapicWriteData64 (reg : ℕ) (data : BitVec 64) (io : IoApic) : IoApic :=
  ioapicWriteData32 (reg + 1) ((data >>> 32).setWidth 32)
    (ioapicWriteData32 reg ((data &&& 0xFFFFFFFF#64).setWidth 32) io)

/-- `__apic_Redirect(irq, vector, delivery)`. -/
def apicRedirect (irq vector : BitVec 8) (delivery : BitVec 32) (io : IoApic) : IoApic :=
  ioapicWriteData64 (0x10 + 2 * irq.toNat) ((delivery ||| vector.setWidth 32).setWidth 64) io

section Functions

variable (mem : ℕ → BitVec 8)

/-- `iso->irqSource`. -/
def isoIrqSource (iso : ℕ) : ℕ := field mem iso 3 1

/-- `iso->gSi`. -/
def isoGsi (iso : ℕ) : ℕ := field mem iso 4 4

/-- The body of the loop of `IOAPIC_Initialize`. -/
def redirectIso (io : IoApic) (iso : ℕ) : IoApic :=
  apicRedirect (BitVec.ofNat 8 (isoGsi mem iso)) (BitVec.ofNat 8 (isoIrqSource mem iso + 0x20)) 0#32
    io

/-- The variables are set and the registers for them are read. -/
def locateIoApic (ioApicBase : ℕ) (io : IoApic) : IoApic :=
  let virtBase := vmGetIoMapping ioApicBase
  let io := { io with
    virtBase := virtBase
    registerSelect := (virtBase + 0x00) % 2 ^ 64
    window := (virtBase + 0x10) % 2 ^ 64 }
  let (version, io) := ioapicReadData32 0x1 io
  let io := { io with interrupts := version >>> 16 }
  let (id, io) := ioapicReadData32 0x0 io
  { io with id := id >>> 24 }

/-- The overrides that were recorded. -/
def AcpiGlobals.overrides (s : AcpiGlobals) : List ℕ := (List.range s.isoAmount).map s.isos

/-- `IOAPIC_Initialize()`. -/
def ioapicInitialize (s : AcpiGlobals) (io : IoApic) : Except Fault IoApic :=
  if s.ioApicBase = 0 then .error .panic
  else .ok (s.overrides.foldl (redirectIso mem) (locateIoApic s.ioApicBase io))

end Functions

/-- The redirection register of a pin. -/
def IoApic.redirection (io : IoApic) (pin : ℕ) : BitVec 64 :=
  io.registers (0x10 + 2 * pin + 1) ++ io.registers (0x10 + 2 * pin)

/-- What is expected of the redirection registers: a pin that is named by overrides has what the
last of them asks for, and any other pin has what it had before. -/
structure Redirects (mem : ℕ → BitVec 8) (isos : List ℕ) (io io' : IoApic) : Prop where
  /-- A pin that is named has the vector of the last override that names it. -/
  named : ∀ l iso l', isos = l ++ iso :: l' → (∀ other ∈ l', isoGsi mem other ≠ isoGsi mem iso) →
    io'.redirection (isoGsi mem iso) = BitVec.ofNat 64 (isoIrqSource mem iso + 0x20)
  /-- A pin that is not named is as it was. -/
  unnamed : ∀ pin, (∀ iso ∈ isos, isoGsi mem iso ≠ pin) → io'.redirection pin = io.redirection pin

/-! ## The registers -/

section Registers

variable {mem : ℕ → BitVec 8} {io : IoApic} {s : AcpiGlobals}

theorem setWidth_and_low (data : BitVec 64) :
    (data &&& 0xFFFFFFFF#64).setWidth 32 = data.setWidth 32 := by
  rw [BitVec.setWidth_and]
  exact BitVec.and_allOnes

/-- The two halves of a number are put together again. -/
theorem append_halves (data : BitVec 64) :
    (data >>> 32).setWidth 32 ++ data.setWidth 32 = data := by
  refine BitVec.eq_of_toNat_eq ?_
  rw [BitVec.toNat_append, BitVec.toNat_setWidth, BitVec.toNat_setWidth, BitVec.toNat_ushiftRight,
    Nat.shiftRight_eq_div_pow, ← Nat.shiftLeft_add_eq_or_of_lt (Nat.mod_lt _ (by decide)),
    Nat.shiftLeft_eq]
  have := data.isLt
  omega

/-- **A write to a redirection register** changes this register and no other. -/
theorem redirection_ioapicWriteData64 (irq pin : ℕ) (data : BitVec 64) :
    (ioapicWriteData64 (0x10 + 2 * irq) data io).redirection pin =
      if pin = irq then data else io.redirection pin := by
  dsimp only [IoApic.redirection, ioapicWriteData64, ioapicWriteData32, writeWindow, writeSelect]
  rw [setWidth_and_low]
  by_cases h : pin = irq
  · have hlow : 0x10 + 2 * irq ≠ 0x10 + 2 * irq + 1 := by omega
    rw [if_pos h, h, Function.update_self, Function.update_of_ne hlow, Function.update_self,
      append_halves]
  · have hhigh : 0x10 + 2 * pin + 1 ≠ 0x10 + 2 * irq + 1 := by omega
    have hhigh' : 0x10 + 2 * pin + 1 ≠ 0x10 + 2 * irq := by omega
    have hlow : 0x10 + 2 * pin ≠ 0x10 + 2 * irq + 1 := by omega
    have hlow' : 0x10 + 2 * pin ≠ 0x10 + 2 * irq := by omega
    rw [if_neg h, Function.update_of_ne hhigh, Function.update_of_ne hhigh',
      Function.update_of_ne hlow, Function.update_of_ne hlow']

/-- One override. -/
theorem redirection_redirectIso {iso : ℕ} (hirq : isoIrqSource mem iso < 0xE0) (pin : ℕ) :
    (redirectIso mem io iso).redirection pin =
      if pin = isoGsi mem iso % 256 then BitVec.ofNat 64 (isoIrqSource mem iso + 0x20)
      else io.redirection pin := by
  rw [redirectIso, apicRedirect, redirection_ioapicWriteData64]
  have hdata : (0#32 ||| (BitVec.ofNat 8 (isoIrqSource mem iso + 0x20)).setWidth 32).setWidth 64 =
      BitVec.ofNat 64 (isoIrqSource mem iso + 0x20) := by
    refine BitVec.eq_of_toNat_eq ?_
    rw [BitVec.zero_or, BitVec.toNat_setWidth, BitVec.toNat_setWidth, BitVec.toNat_ofNat,
      BitVec.toNat_ofNat]
    omega
  rw [hdata]
  rfl

/-! ## The overrides -/

/-- A pin that no override leads to. -/
theorem redirection_of_forall_ne {isos : List ℕ} (hirq : ∀ iso ∈ isos, isoIrqSource mem iso < 0xE0)
    {pin : ℕ} (h : ∀ iso ∈ isos, isoGsi mem iso % 256 ≠ pin) :
    (isos.foldl (redirectIso mem) io).redirection pin = io.redirection pin := by
  induction isos generalizing io with
  | nil => rfl
  | cons iso isos ih =>
    rw [List.forall_mem_cons] at h hirq
    rw [List.foldl_cons, ih hirq.2 h.2, redirection_redirectIso hirq.1, if_neg h.1.symm]

/-- **The last override that leads to a pin counts.** -/
theorem redirection_of_last {l l' : List ℕ} {iso : ℕ}
    (hirq : ∀ other ∈ l ++ iso :: l', isoIrqSource mem other < 0xE0)
    (h : ∀ other ∈ l', isoGsi mem other % 256 ≠ isoGsi mem iso % 256) :
    ((l ++ iso :: l').foldl (redirectIso mem) io).redirection (isoGsi mem iso % 256) =
      BitVec.ofNat 64 (isoIrqSource mem iso + 0x20) := by
  rw [List.forall_mem_append, List.forall_mem_cons] at hirq
  rw [List.foldl_append, List.foldl_cons, redirection_of_forall_ne hirq.2.2 h,
    redirection_redirectIso hirq.2.1, if_pos rfl]

/-- Reading the registers for the variables changes none of them. -/
theorem redirects_locateIoApic_iff {isos : List ℕ} {ioApicBase : ℕ} {io' : IoApic} :
    Redirects mem isos (locateIoApic ioApicBase io) io' ↔ Redirects mem isos io io' :=
  ⟨fun h ↦ ⟨h.named, h.unnamed⟩, fun h ↦ ⟨h.named, h.unnamed⟩⟩

/-- The overrides with pins below 256 are carried out. -/
theorem redirects_of_forall_lt {isos : List ℕ} (hirq : ∀ iso ∈ isos, isoIrqSource mem iso < 0xE0)
    (h : ∀ iso ∈ isos, isoGsi mem iso < 256) :
    Redirects mem isos io (isos.foldl (redirectIso mem) io) := by
  have hmod : ∀ iso ∈ isos, isoGsi mem iso % 256 = isoGsi mem iso :=
    fun iso hiso ↦ Nat.mod_eq_of_lt (h iso hiso)
  constructor
  · rintro l iso l' rfl hlast
    have hiso := hmod iso (by simp)
    have hlast' : ∀ other ∈ l', isoGsi mem other % 256 ≠ isoGsi mem iso % 256 := by
      intro other hother
      rw [hiso, hmod other (by simp [hother])]
      exact hlast other hother
    rw [← redirection_of_last hirq hlast', hiso]
  · intro pin hpin
    refine redirection_of_forall_ne hirq fun iso hiso ↦ ?_
    rw [hmod iso hiso]
    exact hpin iso hiso

/-- An I/O APIC with 0 in all of its registers. -/
def IoApic.reset : IoApic where
  select := 0
  registers _ := 0#32
  virtBase := 0
  registerSelect := 0
  window := 0
  interrupts := 0#32
  id := 0#32

/-- An override with a pin from 256 on is not carried out. -/
theorem not_redirects_of_ge {isos : List ℕ} (hirq : ∀ iso ∈ isos, isoIrqSource mem iso < 0xE0)
    {iso : ℕ} (hiso : iso ∈ isos) (hge : 256 ≤ isoGsi mem iso)
    (hio : ∀ reg, io.registers reg = 0#32) :
    ¬ Redirects mem isos io (isos.foldl (redirectIso mem) io) := by
  intro h
  obtain ⟨l, last, l', rfl, hsame, hlast⟩ :=
    exists_last (p := fun other ↦ isoGsi mem other = isoGsi mem iso) hiso rfl
  have hnamed := h.named l last l' rfl fun other hother ↦ hsame ▸ hlast other hother
  have hkept : ∀ other ∈ l ++ last :: l', isoGsi mem other % 256 ≠ isoGsi mem last := by
    intro other _
    have := Nat.mod_lt (isoGsi mem other) (by decide : 0 < 256)
    omega
  rw [redirection_of_forall_ne hirq hkept, IoApic.redirection, hio, hio] at hnamed
  have hlt := hirq last (by simp)
  have hzero := congrArg BitVec.toNat hnamed
  rw [BitVec.toNat_ofNat, Nat.mod_eq_of_lt (by omega)] at hzero
  exact absurd hzero.symm (Nat.succ_ne_zero _)

/-- **When the overrides are carried out**, whatever the registers hold before: all of the pins
have to be below 256. -/
theorem ioapicInitialize_redirects_iff (mem : ℕ → BitVec 8) {s : AcpiGlobals}
    (hbase : s.ioApicBase ≠ 0) (hirq : ∀ iso ∈ s.overrides, isoIrqSource mem iso < 0xE0) :
    (∀ io, ∃ io', ioapicInitialize mem s io = .ok io' ∧ Redirects mem s.overrides io io') ↔
      ∀ iso ∈ s.overrides, isoGsi mem iso < 256 := by
  simp only [ioapicInitialize, if_neg hbase, Except.ok.injEq, exists_eq_left']
  constructor
  · intro h iso hiso
    by_contra hge
    exact not_redirects_of_ge hirq hiso (Nat.le_of_not_lt hge) (fun _ ↦ rfl)
      (redirects_locateIoApic_iff.mpr (h .reset))
  · intro h io
    exact redirects_locateIoApic_iff.mp (redirects_of_forall_lt hirq h)

/-- The variables after a walk that has recorded one entry. -/
def oneOverride : AcpiGlobals where
  processors _ := 0
  processorCount := 1
  isos _ := entriesStart
  isoAmount := 1
  ioApicBase := 0xFEC00000

/-- The override of interrupt 0 by interrupt 2 is carried out. -/
theorem ioapicInitialize_redirects_iff_two : ∃ io',
    ioapicInitialize (madtTable overrideEntry) oneOverride .reset = .ok io' ∧
    Redirects (madtTable overrideEntry) oneOverride.overrides .reset io' :=
  (ioapicInitialize_redirects_iff _ (by decide) (by decide +kernel)).mpr (by decide +kernel) .reset

/-- The entry of an override of interrupt 0 by interrupt 256. -/
def farOverrideEntry : List (BitVec 8) :=
  [2#8, 10#8, 0#8, 0#8, 0#8, 1#8, 0#8, 0#8, 0#8, 0#8]

/-- **Pin 0 is reprogrammed instead of pin 256.** -/
theorem ioapicInitialize_truncates :
    isoGsi (madtTable farOverrideEntry) entriesStart = 256 ∧
    (∃ io', ioapicInitialize (madtTable farOverrideEntry) oneOverride .reset = .ok io' ∧
      io'.redirection 256 = 0 ∧ io'.redirection 0 = 0x20) ∧
    ¬ ∃ io', ioapicInitialize (madtTable farOverrideEntry) oneOverride .reset = .ok io' ∧
      Redirects (madtTable farOverrideEntry) oneOverride.overrides .reset io' := by
  refine ⟨by decide +kernel, ⟨_, rfl, by decide +kernel, by decide +kernel⟩, ?_⟩
  rintro ⟨io', hinit, hredirects⟩
  rw [ioapicInitialize, if_neg (by decide), Except.ok.injEq] at hinit
  have hkept := hredirects.unnamed 0 (by decide +kernel)
  rw [← hinit] at hkept
  revert hkept
  decide +kernel

end Registers

end CubikOS

import CubikOS.Arch.Madt

/-!
# The table of processors

`SMP_Initialize` of `Kernel/arch/x86_64/smp.c` and `SetCPULocal` of `Kernel/arch/x86_64/cpu.c`.

The walk through the MADT has left the processors in `g_Processors`, from index 1 on.  Index 0 is
that of the boot processor, and holds 0 as long as nobody writes to it.  `SMP_Initialize` sets the
boot processor up by itself, and then goes through the array from index 0 on and skips every 0.

* `Smp.Holds` says which processors are in the table, and that each of them knows its number.
* `steps_smpRound` says what the loop does to it.
* `smpInitialize_cpus` says which processors are in the table at the end.
-/

set_option autoImplicit false

namespace CubikOS

open Slots Records

/-! ## The functions -/

/-- `struct GlobalDescTablePointer` and `struct InterruptDescTablePointer`. -/
structure DescTablePointer where
  /-- `size`. -/
  size : ℕ
  /-- `base`. -/
  base : ℕ

/-- `struct CPUCore`. -/
structure CpuCore where
  /-- `self`. -/
  self : ℕ
  /-- `id`. -/
  id : ℕ
  /-- `gdt`. -/
  gdt : ℕ
  /-- `gdtPtr`. -/
  gdtPtr : DescTablePointer
  /-- `idtPtr`. -/
  idtPtr : DescTablePointer
  /-- `currentThread`. -/
  currentThread : ℕ
  /-- `idleThread`. -/
  idleThread : ℕ
  /-- `idleProcess`. -/
  idleProcess : ℕ

/-- The table of processors, and what it points to. -/
structure Smp where
  /-- `cpus`, of 256 pointers. -/
  cpus : ℕ → ℕ
  /-- The objects. -/
  heap : ℕ → CpuCore
  /-- How many objects have been allocated. -/
  objects : ℕ
  /-- `g_Gdtr`. -/
  gdtr : DescTablePointer
  /-- `g_Idtr`. -/
  idtr : DescTablePointer
  /-- The base of the GS segment. -/
  gsBase : ℕ
  /-- The base of the GS segment after `swapgs`. -/
  kernelGsBase : ℕ

section Functions

-- what `KernelAllocateObject` returns the first time it is called, the second time and so on
variable (kernelAllocateObject : ℕ → ℕ)

/-- `cpus[cpuId] = (struct CPUCore *) KernelAllocateObject(sizeof(struct CPUCore))`. -/
def allocateCore (cpuId : ℕ) (t : Smp) : Smp :=
  { t with
    cpus := Function.update t.cpus cpuId (kernelAllocateObject t.objects)
    objects := t.objects + 1 }

/-- A write to `*cpu`. -/
def writeCore (cpu : ℕ) (f : CpuCore → CpuCore) (t : Smp) : Except Fault Smp :=
  if cpu = 0 then .error .nullDereference
  else .ok { t with heap := Function.update t.heap cpu (f (t.heap cpu)) }

/-- `__smp_InitializeProcessor(cpuId)`. -/
def smpInitializeProcessor (cpuId : ℕ) (t : Smp) : Except Fault Smp :=
  if cpuId < 256 then
    writeCore ((allocateCore kernelAllocateObject cpuId t).cpus cpuId)
      (fun core ↦ { core with id := cpuId }) (allocateCore kernelAllocateObject cpuId t)
  else .error .outOfBounds

/-- `SetCPULocal(cpu)`. -/
def setCpuLocal (cpu : ℕ) (t : Smp) : Except Fault Smp :=
  writeCore cpu (fun core ↦ { core with self := cpu }) { t with gsBase := cpu, kernelGsBase := cpu }

/-- The body of the loop of `SMP_Initialize`. -/
def smpRound (s : AcpiGlobals) (i : ℕ) (t : Smp) : Except Fault Smp :=
  if i < 256 then
    if s.processors i ≠ 0 then smpInitializeProcessor kernelAllocateObject (s.processors i) t
    else .ok t
  else .error .outOfBounds

/-- What is assigned to `*cpus[0]`. -/
def bootCore (t : Smp) (_ : CpuCore) : CpuCore where
  self := 0
  id := 0
  gdt := t.gdtr.base
  gdtPtr := t.gdtr
  idtPtr := t.idtr
  currentThread := 0
  idleThread := 0
  idleProcess := 0

/-- `SMP_Initialize()`. -/
def smpInitialize (s : AcpiGlobals) (t : Smp) : Except Fault Smp :=
  match writeCore ((allocateCore kernelAllocateObject 0 t).cpus 0) (bootCore t)
    (allocateCore kernelAllocateObject 0 t) with
  | .error e => .error e
  | .ok t =>
    match setCpuLocal (t.cpus 0) t with
    | .error e => .error e
    | .ok t => steps (smpRound kernelAllocateObject s) (List.range s.processorCount) t

/-- The processors in the table. -/
structure Smp.Holds (ids : Set ℕ) (t : Smp) : Prop where
  /-- These are in the table, and no others. -/
  nonNull : ∀ id, t.cpus id ≠ 0 ↔ id ∈ ids
  /-- What is in the table has been allocated. -/
  allocated : ∀ id, t.cpus id ≠ 0 → ∃ k < t.objects, t.cpus id = kernelAllocateObject k
  /-- Each of them knows its number. -/
  id : ∀ id, t.cpus id ≠ 0 → (t.heap (t.cpus id)).id = id

end Functions

/-! ## One processor -/

section Processors

variable {kernelAllocateObject : ℕ → ℕ} {s : AcpiGlobals} {t : Smp} {ids : Set ℕ} {cpuId : ℕ}

/-- **A new processor** is in the table afterwards, and the others are as they were. -/
theorem writeCore_allocateCore (hinj : Function.Injective kernelAllocateObject)
    (hnull : ∀ k, kernelAllocateObject k ≠ 0) (h : t.Holds kernelAllocateObject ids)
    (f : CpuCore → CpuCore) (hf : ∀ core, (f core).id = cpuId) :
    ∃ t', writeCore ((allocateCore kernelAllocateObject cpuId t).cpus cpuId) f
        (allocateCore kernelAllocateObject cpuId t) = .ok t' ∧
      t'.Holds kernelAllocateObject (insert cpuId ids) := by
  have hnew : (allocateCore kernelAllocateObject cpuId t).cpus cpuId =
      kernelAllocateObject t.objects := Function.update_self _ _ _
  have hother : ∀ id, id ≠ cpuId → (allocateCore kernelAllocateObject cpuId t).cpus id =
      t.cpus id := fun id hne ↦ Function.update_of_ne hne _ _
  rw [writeCore, hnew, if_neg (hnull _)]
  refine ⟨_, rfl, ⟨fun id ↦ ?_, fun id hid ↦ ?_, fun id hid ↦ ?_⟩⟩ <;> dsimp only at *
  · by_cases hne : id = cpuId
    · rw [hne, hnew]
      exact iff_of_true (hnull _) (Set.mem_insert cpuId ids)
    · rw [hother id hne, h.nonNull, Set.mem_insert_iff, or_iff_right hne]
  · by_cases hne : id = cpuId
    · exact ⟨t.objects, Nat.lt_succ_self _, hne ▸ hnew⟩
    · rw [hother id hne] at hid ⊢
      obtain ⟨k, hk, heq⟩ := h.allocated id hid
      exact ⟨k, Nat.lt_succ_of_lt hk, heq⟩
  · by_cases hne : id = cpuId
    · rw [hne, hnew, Function.update_self, hf]
    · rw [hother id hne] at hid ⊢
      -- an object that was there before is not the new one
      obtain ⟨k, hk, heq⟩ := h.allocated id hid
      have hdistinct : t.cpus id ≠ kernelAllocateObject t.objects := by
        rw [heq]
        exact fun hsame ↦ hk.ne (hinj hsame)
      rw [Function.update_of_ne hdistinct]
      exact h.id id hid

/-- A write that leaves the number of the processor alone. -/
theorem writeCore_holds (h : t.Holds kernelAllocateObject ids) {cpu : ℕ} (hcpu : cpu ≠ 0)
    (f : CpuCore → CpuCore) (hf : ∀ core, (f core).id = core.id) :
    ∃ t', writeCore cpu f t = .ok t' ∧ t'.Holds kernelAllocateObject ids := by
  rw [writeCore, if_neg hcpu]
  refine ⟨_, rfl, ⟨h.nonNull, h.allocated, fun id hid ↦ ?_⟩⟩
  have hid := h.id id hid
  dsimp only
  by_cases hsame : t.cpus id = cpu
  · rw [hsame, Function.update_self, hf, ← hsame, hid]
  · rw [Function.update_of_ne hsame, hid]

theorem setCpuLocal_holds (h : t.Holds kernelAllocateObject ids) {cpu : ℕ} (hcpu : cpu ≠ 0) :
    ∃ t', setCpuLocal cpu t = .ok t' ∧ t'.Holds kernelAllocateObject ids :=
  writeCore_holds (t := { t with gsBase := cpu, kernelGsBase := cpu })
    ⟨h.nonNull, h.allocated, h.id⟩ hcpu _ fun _ ↦ rfl

/-! ## The loop -/

/-- **What the loop does to the table.** -/
theorem steps_smpRound (hinj : Function.Injective kernelAllocateObject)
    (hnull : ∀ k, kernelAllocateObject k ≠ 0) (h : t.Holds kernelAllocateObject {0}) {l : List ℕ}
    (hl : ∀ i ∈ l, i < 256 ∧ s.processors i < 256) :
    ∃ t', steps (smpRound kernelAllocateObject s) l t = .ok t' ∧
      t'.Holds kernelAllocateObject {id | id = 0 ∨ id ∈ l.map s.processors} := by
  induction l using List.reverseRecOn with
  | nil =>
    have hids : {id | id = 0 ∨ id ∈ [].map s.processors} = ({0} : Set ℕ) := by
      ext id
      simp
    exact ⟨t, rfl, hids ▸ h⟩
  | append_singleton l i ih =>
    obtain ⟨t₁, hsteps, hholds⟩ := ih fun j hj ↦ hl j (List.mem_append_left _ hj)
    obtain ⟨hi, hid⟩ := hl i (by simp)
    have hids : {id | id = 0 ∨ id ∈ (l ++ [i]).map s.processors} =
        insert (s.processors i) {id | id = 0 ∨ id ∈ l.map s.processors} := by
      ext id
      simp only [List.map_append, List.map_singleton, List.mem_append, List.mem_singleton,
        Set.mem_ofPred_eq, Set.mem_insert_iff]
      tauto
    rw [steps_append_ok hsteps, hids, steps, smpRound, if_pos hi]
    by_cases hzero : s.processors i = 0
    · have hmem : s.processors i ∈ {id | id = 0 ∨ id ∈ l.map s.processors} := Or.inl hzero
      rw [if_neg (not_not.mpr hzero), Set.insert_eq_of_mem hmem]
      exact ⟨t₁, rfl, hholds⟩
    · obtain ⟨t₂, hprocessor, hholds₂⟩ := writeCore_allocateCore hinj hnull hholds
        (fun core ↦ { core with id := s.processors i }) fun _ ↦ rfl
      rw [if_pos hzero, smpInitializeProcessor, if_pos hid, hprocessor]
      exact ⟨t₂, rfl, hholds₂⟩

/-- **What `SMP_Initialize` leaves in the table.** -/
theorem smpInitialize_holds (hinj : Function.Injective kernelAllocateObject)
    (hnull : ∀ k, kernelAllocateObject k ≠ 0) (ht : ∀ id, t.cpus id = 0)
    (hs : ∀ i, i < s.processorCount → i < 256 ∧ s.processors i < 256) :
    ∃ t', smpInitialize kernelAllocateObject s t = .ok t' ∧ t'.Holds kernelAllocateObject
      {id | id = 0 ∨ id ∈ (List.range s.processorCount).map s.processors} := by
  have hempty : t.Holds kernelAllocateObject ∅ :=
    ⟨fun id ↦ iff_of_false (not_not.mpr (ht id)) (Set.notMem_empty id),
      fun id hid ↦ absurd (ht id) hid, fun id hid ↦ absurd (ht id) hid⟩
  obtain ⟨t₁, hboot, hholds₁⟩ := writeCore_allocateCore hinj hnull hempty (bootCore t) fun _ ↦ rfl
  rw [insert_empty_eq] at hholds₁
  obtain ⟨t₂, hlocal, hholds₂⟩ := setCpuLocal_holds hholds₁
    ((hholds₁.nonNull 0).mpr (Set.mem_singleton 0))
  obtain ⟨t₃, hsteps, hholds₃⟩ := steps_smpRound hinj hnull hholds₂
    fun i hi ↦ hs i (List.mem_range.mp hi)
  refine ⟨t₃, ?_, hholds₃⟩
  simp only [smpInitialize, hboot, hlocal, hsteps]

/-! ## The walk and what follows it -/

theorem mem_processorsOf {mem : ℕ → BitVec 8} {entries : List ℕ} {id : ℕ} :
    id ∈ processorsOf mem entries ↔
      ∃ entry ∈ entries, IsProcessor mem entry ∧ localApicId mem entry = id := by
  rw [processorsOf, List.mem_map]
  simp only [List.mem_filter, decide_eq_true_eq, and_assoc]

/-- The array of processors after the walk. -/
theorem map_after_processors (mem : ℕ → BitVec 8) (s : AcpiGlobals) (entries : List ℕ) :
    (List.range (s.after mem entries).processorCount).map (s.after mem entries).processors =
      s.processors 0 :: processorsOf mem entries := by
  dsimp only [AcpiGlobals.after]
  rw [List.range_eq_range', List.range'_succ, List.map_cons, Nat.zero_add, map_fill,
    fill_of_lt Nat.zero_lt_one]

/-- **The processors in the table** are the boot processor and those of the MADT. -/
theorem smpInitialize_cpus (mem : ℕ → BitVec 8) {madt : ℕ} {entries : List ℕ}
    (hchain : Chain (madtNext mem) (madtEnd mem madt) (madtFirst madt) entries)
    (hroom : (processorsOf mem entries).length ≤ 255)
    (hs : s.Start) (hboot : s.processors 0 = 0) (ht : ∀ id, t.cpus id = 0)
    (hinj : Function.Injective kernelAllocateObject)
    (hnull : ∀ k, kernelAllocateObject k ≠ 0) :
    ∃ fuel s' t', madtWalk mem madt fuel s = some (.ok s') ∧
      smpInitialize kernelAllocateObject s' t = .ok t' ∧
      (∀ id, t'.cpus id ≠ 0 ↔
        id = 0 ∨ ∃ entry ∈ entries, IsProcessor mem entry ∧ localApicId mem entry = id) ∧
      ∀ id, t'.cpus id ≠ 0 → (t'.heap (t'.cpus id)).id = id := by
  have hlist := map_after_processors mem s entries
  have hbounds : ∀ i, i < (s.after mem entries).processorCount →
      i < 256 ∧ (s.after mem entries).processors i < 256 := by
    intro i hi
    refine ⟨lt_of_lt_of_le hi (Nat.succ_le_succ hroom), ?_⟩
    have hmem : (s.after mem entries).processors i ∈ s.processors 0 :: processorsOf mem entries :=
      hlist ▸ List.mem_map_of_mem (List.mem_range.mpr hi)
    rcases List.mem_cons.mp hmem with heq | hmem
    · rw [heq, hboot]
      decide
    · obtain ⟨entry, -, -, heq⟩ := mem_processorsOf.mp hmem
      rw [← heq]
      exact field_lt mem entry 3 1
  obtain ⟨t', hinit, hholds⟩ := smpInitialize_holds hinj hnull ht hbounds
  rw [hlist] at hholds
  refine ⟨_, _, t', madtWalk_of_chain hs hchain hroom, hinit, fun id ↦ ?_, hholds.id⟩
  rw [hholds.nonNull, Set.mem_ofPred_eq, List.mem_cons, hboot, mem_processorsOf, ← or_assoc,
    or_self]

/-- The table before anything is in it, where all memory is 0. -/
def Smp.initial : Smp where
  cpus _ := 0
  heap _ := ⟨0, 0, 0, ⟨0, 0⟩, ⟨0, 0⟩, 0, 0, 0⟩
  objects := 0
  gdtr := ⟨0, 0⟩
  idtr := ⟨0, 0⟩
  gsBase := 0
  kernelGsBase := 0

/-- With a MADT of one processor there are two. -/
theorem smpInitialize_cpus_processor : ∃ fuel s' t',
    madtWalk (madtTable processorEntry) (vmGetIoMapping 0x2000) fuel .initial = some (.ok s') ∧
    smpInitialize (fun k ↦ 0x1000 + 128 * k) s' .initial = .ok t' ∧
    (∀ id, t'.cpus id ≠ 0 ↔ id = 0 ∨ ∃ entry ∈ [entriesStart],
      IsProcessor (madtTable processorEntry) entry ∧
        localApicId (madtTable processorEntry) entry = id) ∧
    ∀ id, t'.cpus id ≠ 0 → (t'.heap (t'.cpus id)).id = id :=
  smpInitialize_cpus _
    (.cons (by decide +kernel) (by decide +kernel) (.done (by decide +kernel))) (by decide +kernel)
    ⟨rfl, rfl⟩ rfl (fun _ ↦ rfl)
    (fun k l h ↦ by omega) fun k ↦ by omega

end Processors

end CubikOS

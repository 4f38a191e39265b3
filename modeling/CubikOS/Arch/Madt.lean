import CubikOS.Lib.Records
import CubikOS.Lib.Slots
import CubikOS.Arch.Acpi

/-!
# The table of interrupt controllers

The walk through the MADT in `ACPI_Initialize` of `Kernel/arch/x86_64/impl-acpi.c`.

The entries of the table lie one behind the other, and the second byte of each is its length.  The
walk adds it to where it is, whatever it is.  Processors go into a table of 256 through an index
that is compared with nothing, interrupt source overrides into another through an index of 8 bits.
The case for an I/O APIC has no `break`, so that it goes on as if it were an override.

* `steps_madtSwitch` says what the variables hold when the entries of a list have been visited.
* `madtWalk_safe_iff` says when the walk ends, and stays inside the tables it reads and writes.
* `madtWalk_records_iff` says when the overrides that are recorded are those of the table.
-/

set_option autoImplicit false

namespace CubikOS

open Bytes Slots Records

/-! ## The functions -/

/-- The variables that the walk writes. -/
structure AcpiGlobals where
  /-- `g_Processors`, of 256 bytes. -/
  processors : ℕ → ℕ
  /-- `g_ProcessorCount`. -/
  processorCount : ℕ
  /-- `g_Isos`, of 256 pointers. -/
  isos : ℕ → ℕ
  /-- `g_IsoAmount`, 8 bits. -/
  isoAmount : ℕ
  /-- `ioApicBase`. -/
  ioApicBase : ℕ

/-- What the two counters are before the walk. -/
structure AcpiGlobals.Start (s : AcpiGlobals) : Prop where
  /-- The boot processor is counted. -/
  processorCount : s.processorCount = 1
  /-- There are no overrides. -/
  isoAmount : s.isoAmount = 0

/-- `sizeof(acpi_madt_t)`. -/
abbrev acpiMadtSize : ℕ := 44

section Functions

variable (mem : ℕ → BitVec 8)

/-- `entry->type`. -/
def madtType (entry : ℕ) : ℕ := field mem entry 0 1

/-- `entry->length`. -/
def madtLength (entry : ℕ) : ℕ := field mem entry 1 1

/-- `apicLocal->apicId`. -/
def localApicId (entry : ℕ) : ℕ := field mem entry 3 1

/-- `apicLocal->flags`. -/
def localFlags (entry : ℕ) : ℕ := field mem entry 4 4

/-- `apicIo->address`. -/
def ioAddress (entry : ℕ) : ℕ := field mem entry 4 4

/-- `apicIo->gSib`. -/
def ioGsib (entry : ℕ) : ℕ := field mem entry 8 4

/-- `g_Isos[g_IsoAmount++] = iso`. -/
def recordIso (iso : ℕ) (s : AcpiGlobals) : Except Fault AcpiGlobals :=
  if s.isoAmount < 256 then .ok { s with
    isos := Function.update s.isos s.isoAmount iso
    isoAmount := (s.isoAmount + 1) % 256 }
  else .error .outOfBounds

/-- The `switch` over the type of an entry. -/
def madtSwitch (entry : ℕ) (s : AcpiGlobals) : Except Fault AcpiGlobals :=
  match madtType mem entry with
  | 0 =>
    if localFlags mem entry &&& 3 ≠ 0 then
      if localApicId mem entry = 0 then .ok s
      else if s.processorCount < 256 then .ok { s with
        processors := Function.update s.processors s.processorCount (localApicId mem entry)
        processorCount := s.processorCount + 1 }
      else .error .outOfBounds
    else .ok s
  -- goes on with the next case
  | 1 => recordIso entry
      (if ioGsib mem entry = 0 then { s with ioApicBase := ioAddress mem entry } else s)
  | 2 => recordIso entry s
  | _ => .ok s

/-- `madtEntry += entry->length`. -/
def madtNext (entry : ℕ) : ℕ := (entry + madtLength mem entry) % 2 ^ 64

/-- `madtEnd`. -/
def madtEnd (madt : ℕ) : ℕ := (madt + field mem madt 4 4) % 2 ^ 64

/-- `madtEntry`, at first. -/
def madtFirst (madt : ℕ) : ℕ := (madt + acpiMadtSize) % 2 ^ 64

/-- The walk through the MADT, unless it is cut off. -/
def madtWalk (madt fuel : ℕ) (s : AcpiGlobals) : Option (Except Fault AcpiGlobals) :=
  walk (madtNext mem) (madtEnd mem madt) (madtSwitch mem) fuel (madtFirst madt) s

/-- The addresses that are read when an entry is visited. -/
def madtReads (entry : ℕ) : List ℕ :=
  [entry, entry + 1] ++ match madtType mem entry with
    | 0 => List.range' (entry + 4) 4 ++
        if localFlags mem entry &&& 3 ≠ 0 then [entry + 3] else []
    | 1 => List.range' (entry + 8) 4 ++
        if ioGsib mem entry = 0 then List.range' (entry + 4) 4 else []
    | _ => []

/-- The addresses that are read during the walk. -/
def madtWalkReads (madt fuel : ℕ) (s : AcpiGlobals) : List ℕ :=
  (visited (madtNext mem) (madtEnd mem madt) (madtSwitch mem) fuel (madtFirst madt) s).flatMap
    (madtReads mem)

/-! ## What the entries say -/

/-- The entry is that of a processor that can be used, and is not the boot processor. -/
def IsProcessor (entry : ℕ) : Prop :=
  madtType mem entry = 0 ∧ localFlags mem entry &&& 3 ≠ 0 ∧ localApicId mem entry ≠ 0

instance (entry : ℕ) : Decidable (IsProcessor mem entry) := inferInstanceAs (Decidable (_ ∧ _))

/-- The entry is that of the I/O APIC for the first interrupts. -/
def IsFirstIoApic (entry : ℕ) : Prop := madtType mem entry = 1 ∧ ioGsib mem entry = 0

instance (entry : ℕ) : Decidable (IsFirstIoApic mem entry) := inferInstanceAs (Decidable (_ ∧ _))

/-- The processors of a list of entries. -/
def processorsOf (entries : List ℕ) : List ℕ :=
  (entries.filter fun entry ↦ IsProcessor mem entry).map (localApicId mem)

/-- The entries of one type. -/
def entriesOf (type : ℕ) (entries : List ℕ) : List ℕ :=
  entries.filter fun entry ↦ madtType mem entry = type

/-- Where the I/O APIC is according to a list of entries: the last of them counts. -/
def ioApicOf (base : ℕ) (entries : List ℕ) : ℕ :=
  ((entries.filter fun entry ↦ IsFirstIoApic mem entry).getLast?.map (ioAddress mem)).getD base

/-- The entries that are recorded as overrides. -/
def recordedOf (entries : List ℕ) : List ℕ :=
  entries.filter fun entry ↦ madtType mem entry = 1 ∨ madtType mem entry = 2

/-- The variables once the entries have been visited. -/
def AcpiGlobals.after (s : AcpiGlobals) (entries : List ℕ) : AcpiGlobals where
  processors := fill s.processors 1 (processorsOf mem entries)
  processorCount := (processorsOf mem entries).length + 1
  isos := (ring 256 s.isos (recordedOf mem entries)).1
  isoAmount := (ring 256 s.isos (recordedOf mem entries)).2
  ioApicBase := ioApicOf mem s.ioApicBase entries

end Functions

/-! ## The entries of a list -/

section Steps

variable {mem : ℕ → BitVec 8} {s : AcpiGlobals} {entry : ℕ} {entries : List ℕ}

theorem processorsOf_append (es es' : List ℕ) :
    processorsOf mem (es ++ es') = processorsOf mem es ++ processorsOf mem es' := by
  rw [processorsOf, List.filter_append, List.map_append]
  rfl

theorem processorsOf_singleton (entry : ℕ) : processorsOf mem [entry] =
    if IsProcessor mem entry then [localApicId mem entry] else [] := by
  rw [processorsOf]
  split <;> rename_i h <;> simp [h]

theorem recordedOf_append (es es' : List ℕ) :
    recordedOf mem (es ++ es') = recordedOf mem es ++ recordedOf mem es' :=
  List.filter_append _ _

theorem recordedOf_singleton (entry : ℕ) : recordedOf mem [entry] =
    if madtType mem entry = 1 ∨ madtType mem entry = 2 then [entry] else [] := by
  rw [recordedOf]
  split <;> rename_i h <;> simp [h]

theorem ioApicOf_append_singleton (base : ℕ) (es : List ℕ) (entry : ℕ) :
    ioApicOf mem base (es ++ [entry]) =
      if IsFirstIoApic mem entry then ioAddress mem entry else ioApicOf mem base es := by
  rw [ioApicOf, List.filter_append]
  by_cases h : IsFirstIoApic mem entry
  · simp [h]
  · simp [h, ioApicOf]

/-- Recording one more entry. -/
theorem recordIso_ring (s t : AcpiGlobals) (l : List ℕ) (hisos : t.isos = (ring 256 s.isos l).1)
    (hamount : t.isoAmount = (ring 256 s.isos l).2) : recordIso entry t = .ok { t with
      isos := (ring 256 s.isos (l ++ [entry])).1
      isoAmount := (ring 256 s.isos (l ++ [entry])).2 } := by
  have hlt : t.isoAmount < 256 := by
    rw [hamount, ring_index]
    exact Nat.mod_lt _ (by decide)
  rw [recordIso, if_pos hlt, ring_append_singleton, hisos, hamount]

/-- The entry of a processor, while there is room for it. -/
theorem madtSwitch_processor (h : IsProcessor mem entry)
    (hroom : (processorsOf mem entries).length < 255) :
    madtSwitch mem entry (s.after mem entries) = .ok (s.after mem (entries ++ [entry])) := by
  obtain ⟨htype, hflags, hid⟩ := h
  have hnot : ¬ (madtType mem entry = 1 ∨ madtType mem entry = 2) := by omega
  have hio : ¬ IsFirstIoApic mem entry := fun h ↦ by
    have := h.1
    omega
  have hlt : (s.after mem entries).processorCount < 256 := Nat.succ_lt_succ hroom
  rw [madtSwitch, htype]
  simp only [hflags, ne_eq, not_false_eq_true, if_true, hid, if_false, hlt]
  simp only [AcpiGlobals.after, processorsOf_append, processorsOf_singleton, recordedOf_append,
    recordedOf_singleton, ioApicOf_append_singleton, if_pos (show IsProcessor mem entry from
      ⟨htype, hflags, hid⟩), if_neg hnot, if_neg hio, List.append_nil, List.length_append,
    List.length_singleton, fill_append, fill, Nat.add_comm 1]

/-- There is no room for it. -/
theorem madtSwitch_full (h : IsProcessor mem entry)
    (hfull : 255 ≤ (processorsOf mem entries).length) :
    madtSwitch mem entry (s.after mem entries) = .error .outOfBounds := by
  obtain ⟨htype, hflags, hid⟩ := h
  have hge : ¬ (s.after mem entries).processorCount < 256 := Nat.not_lt.mpr (Nat.succ_le_succ hfull)
  rw [madtSwitch, htype]
  simp only [hflags, ne_eq, not_false_eq_true, if_true, hid, if_false, hge]

/-- Any other entry. -/
theorem madtSwitch_other (h : ¬ IsProcessor mem entry) :
    madtSwitch mem entry (s.after mem entries) = .ok (s.after mem (entries ++ [entry])) := by
  have hprocessors : processorsOf mem (entries ++ [entry]) = processorsOf mem entries := by
    rw [processorsOf_append, processorsOf_singleton, if_neg h, List.append_nil]
  rw [madtSwitch]
  split
  case h_1 htype =>
    have hafter : s.after mem (entries ++ [entry]) = s.after mem entries := by
      simp [AcpiGlobals.after, hprocessors, recordedOf_append, recordedOf_singleton,
        ioApicOf_append_singleton, IsFirstIoApic, htype]
    rw [hafter]
    split
    case isTrue hflags =>
      have hid : localApicId mem entry = 0 := by
        by_contra hid
        exact h ⟨htype, hflags, hid⟩
      rw [if_pos hid]
    case isFalse => rfl
  case h_2 htype =>
    have hrecorded : recordedOf mem (entries ++ [entry]) = recordedOf mem entries ++ [entry] := by
      rw [recordedOf_append, recordedOf_singleton, if_pos (Or.inl htype)]
    rw [recordIso_ring s _ (recordedOf mem entries)]
    · by_cases hgsib : ioGsib mem entry = 0
      · simp [AcpiGlobals.after, hprocessors, hrecorded, ioApicOf_append_singleton, IsFirstIoApic,
          htype, hgsib]
      · simp [AcpiGlobals.after, hprocessors, hrecorded, ioApicOf_append_singleton, IsFirstIoApic,
          hgsib]
    · split <;> rfl
    · split <;> rfl
  case h_3 htype =>
    have hrecorded : recordedOf mem (entries ++ [entry]) = recordedOf mem entries ++ [entry] := by
      rw [recordedOf_append, recordedOf_singleton, if_pos (Or.inr htype)]
    rw [recordIso_ring s _ (recordedOf mem entries) rfl rfl]
    simp [AcpiGlobals.after, hprocessors, hrecorded, ioApicOf_append_singleton, IsFirstIoApic,
      htype]
  case h_4 _ h1 h2 =>
    have hio : ¬ IsFirstIoApic mem entry := fun hfirst ↦ h1 hfirst.1
    have hrecorded : recordedOf mem (entries ++ [entry]) = recordedOf mem entries := by
      rw [recordedOf_append, recordedOf_singleton, if_neg (not_or.mpr ⟨h1, h2⟩), List.append_nil]
    simp [AcpiGlobals.after, hprocessors, hrecorded, ioApicOf_append_singleton, hio]

theorem after_nil (h : s.Start) : s.after mem [] = s := by
  obtain ⟨processors, processorCount, isos, isoAmount, ioApicBase⟩ := s
  obtain ⟨hcount, hamount⟩ := h
  dsimp only at hcount hamount
  rw [hcount, hamount]
  rfl

theorem length_processorsOf_append (entries : List ℕ) (entry : ℕ) :
    (processorsOf mem (entries ++ [entry])).length = (processorsOf mem entries).length +
      if IsProcessor mem entry then 1 else 0 := by
  rw [processorsOf_append, processorsOf_singleton, List.length_append]
  split <;> rfl

/-- **What the variables hold when the entries have been visited.** -/
theorem steps_madtSwitch (hs : s.Start) (h : (processorsOf mem entries).length ≤ 255) :
    steps (madtSwitch mem) entries s = .ok (s.after mem entries) := by
  induction entries using List.reverseRecOn with
  | nil => rw [steps, after_nil hs]
  | append_singleton entries entry ih =>
    rw [length_processorsOf_append] at h
    rw [steps_append_ok (ih (by omega)), steps]
    by_cases hprocessor : IsProcessor mem entry
    · rw [if_pos hprocessor] at h
      rw [madtSwitch_processor hprocessor (by omega)]
      rfl
    · rw [madtSwitch_other hprocessor]
      rfl

/-- With more processors than there is room for, the walk writes outside of `g_Processors`. -/
theorem steps_madtSwitch_full (hs : s.Start) (h : 255 < (processorsOf mem entries).length) :
    steps (madtSwitch mem) entries s = .error .outOfBounds := by
  induction entries using List.reverseRecOn with
  | nil => exact absurd h (Nat.not_lt_zero 255)
  | append_singleton entries entry ih =>
    rw [length_processorsOf_append] at h
    rcases Nat.lt_or_ge 255 (processorsOf mem entries).length with hlt | hle
    · exact steps_append_error (ih hlt)
    · have hprocessor : IsProcessor mem entry := by
        by_contra hnot
        rw [if_neg hnot] at h
        omega
      rw [if_pos hprocessor] at h
      rw [steps_append_ok (steps_madtSwitch hs hle), steps,
        madtSwitch_full hprocessor (by omega)]

end Steps

/-! ## The walk -/

section Walk

variable {mem : ℕ → BitVec 8} {s : AcpiGlobals} {phys entry stop : ℕ} {entries : List ℕ}

/-- The end of the table is far from the end of the address space. -/
theorem madtEnd_eq (hphys : phys ≤ 0xFFFFFFFF) : madtEnd mem (vmGetIoMapping phys) =
    kernelIoVirtualBase + phys + field mem (vmGetIoMapping phys) 4 4 := by
  have hlt := field_lt mem (vmGetIoMapping phys) 4 4
  rw [madtEnd, vmGetIoMapping_of_le hphys] at *
  dsimp only [kernelIoVirtualBase] at *
  omega

theorem madtNext_eq (hphys : phys ≤ 0xFFFFFFFF) (h : entry < madtEnd mem (vmGetIoMapping phys)) :
    madtNext mem entry = entry + madtLength mem entry := by
  have hlt := field_lt mem (vmGetIoMapping phys) 4 4
  have hlength : madtLength mem entry < 256 := field_lt mem entry 1 1
  rw [madtEnd_eq hphys] at h
  rw [madtNext]
  dsimp only [kernelIoVirtualBase] at *
  omega

/-- The number of bytes of an entry that are looked at. -/
def madtExtent (mem : ℕ → BitVec 8) (entry : ℕ) : ℕ :=
  match madtType mem entry with
  | 0 => 8
  | 1 => 12
  | _ => 2

theorem mem_madtReads_lt {a : ℕ} (ha : a ∈ madtReads mem entry) :
    a < entry + madtExtent mem entry := by
  rw [madtReads] at ha
  rw [madtExtent]
  rcases htype : madtType mem entry with _ | _ | type
  · simp only [htype, List.mem_append, List.mem_range'_1] at ha
    change a < entry + 8
    rcases ha with ha | ha | ha
    · simp only [List.mem_cons, List.not_mem_nil, or_false] at ha
      omega
    · omega
    · split at ha
      · rw [List.mem_singleton] at ha
        omega
      · exact absurd ha List.not_mem_nil
  · simp only [htype, Nat.zero_add, List.mem_append, List.mem_range'_1] at ha
    change a < entry + 12
    rcases ha with ha | ha | ha
    · simp only [List.mem_cons, List.not_mem_nil, or_false] at ha
      omega
    · omega
    · split at ha
      · rw [List.mem_range'_1] at ha
        omega
      · exact absurd ha List.not_mem_nil
  · simp only [htype, List.append_nil, List.mem_cons, List.not_mem_nil, or_false] at ha
    change a < entry + 2
    omega

/-- The last byte of them is read. -/
theorem exists_mem_madtReads (mem : ℕ → BitVec 8) (entry : ℕ) :
    ∃ a ∈ madtReads mem entry, a + 1 = entry + madtExtent mem entry := by
  rw [madtReads, madtExtent]
  split
  · exact ⟨entry + 7, by simp, rfl⟩
  · exact ⟨entry + 11, by simp, rfl⟩
  · exact ⟨entry + 1, by simp, rfl⟩

theorem forall_madtReads :
    (∀ a ∈ madtReads mem entry, a < stop) ↔ entry + madtExtent mem entry ≤ stop := by
  constructor
  · intro h
    obtain ⟨a, ha, hlast⟩ := exists_mem_madtReads mem entry
    exact hlast ▸ h a ha
  · intro h a ha
    exact lt_of_lt_of_le (mem_madtReads_lt ha) h

/-- **A walk that ends** has visited the entries of the table. -/
theorem madtWalk_ok (hphys : phys ≤ 0xFFFFFFFF) (hs : s.Start) {fuel : ℕ} {s' : AcpiGlobals}
    (h : madtWalk mem (vmGetIoMapping phys) fuel s = some (.ok s')) :
    ∃ entries, Chain (madtNext mem) (madtEnd mem (vmGetIoMapping phys))
        (madtFirst (vmGetIoMapping phys)) entries ∧
      (processorsOf mem entries).length ≤ 255 ∧ s' = s.after mem entries ∧
      madtWalkReads mem (vmGetIoMapping phys) fuel s = entries.flatMap (madtReads mem) := by
  have hnext : ∀ b, b < madtEnd mem (vmGetIoMapping phys) → b ≤ madtNext mem b := by
    intro b hb
    rw [madtNext_eq hphys hb]
    exact Nat.le_add_right b _
  obtain ⟨entries, hchain, hsteps, hvisited⟩ := chain_of_walk hnext h
  have hroom : (processorsOf mem entries).length ≤ 255 := by
    by_contra hfull
    rw [steps_madtSwitch_full hs (Nat.lt_of_not_le hfull)] at hsteps
    exact absurd hsteps (by simp)
  rw [steps_madtSwitch hs hroom, Except.ok.injEq] at hsteps
  exact ⟨entries, hchain, hroom, hsteps.symm, by rw [madtWalkReads, hvisited]⟩

/-- **The walk along the entries of a table.** -/
theorem madtWalk_of_chain {madt : ℕ} (hs : s.Start)
    (hchain : Chain (madtNext mem) (madtEnd mem madt) (madtFirst madt) entries)
    (hroom : (processorsOf mem entries).length ≤ 255) :
    madtWalk mem madt (entries.length + 1) s = some (.ok (s.after mem entries)) := by
  rw [madtWalk, walk_of_chain hchain (Nat.lt_succ_self _), steps_madtSwitch hs hroom]

/-- The walk ends, reads nothing behind the table and writes nothing outside of its arrays. -/
def MadtWalkSafe (mem : ℕ → BitVec 8) (madt : ℕ) (s : AcpiGlobals) : Prop :=
  ∃ fuel s', madtWalk mem madt fuel s = some (.ok s') ∧
    ∀ a ∈ madtWalkReads mem madt fuel s, a < madtEnd mem madt

/-- **When the walk is safe**: no entry is empty, what is read of the last one is still in the
table, and there are no more than 255 processors besides the boot processor. -/
theorem madtWalk_safe_iff (mem : ℕ → BitVec 8) {phys : ℕ} (hphys : phys ≤ 0xFFFFFFFF)
    {s : AcpiGlobals} (hs : s.Start) :
    MadtWalkSafe mem (vmGetIoMapping phys) s ↔
      ∃ entries, Chain (madtNext mem) (madtEnd mem (vmGetIoMapping phys))
          (madtFirst (vmGetIoMapping phys)) entries ∧
        (∀ entry ∈ entries,
          entry + madtExtent mem entry ≤ madtEnd mem (vmGetIoMapping phys)) ∧
        (processorsOf mem entries).length ≤ 255 := by
  constructor
  · rintro ⟨fuel, s', hwalk, hreads⟩
    obtain ⟨entries, hchain, hroom, -, heq⟩ := madtWalk_ok hphys hs hwalk
    refine ⟨entries, hchain, fun entry hentry ↦ forall_madtReads.mp fun a ha ↦ ?_, hroom⟩
    rw [heq] at hreads
    exact hreads a (List.mem_flatMap.mpr ⟨entry, hentry, ha⟩)
  · rintro ⟨entries, hchain, hextent, hroom⟩
    have hwalk := madtWalk_of_chain hs hchain hroom
    refine ⟨entries.length + 1, s.after mem entries, hwalk, fun a ha ↦ ?_⟩
    obtain ⟨entries', hchain', -, -, heq⟩ := madtWalk_ok hphys hs hwalk
    rw [heq, ← hchain.unique hchain'] at ha
    obtain ⟨entry, hentry, ha⟩ := List.mem_flatMap.mp ha
    exact forall_madtReads.mpr (hextent entry hentry) a ha

/-- A table at the physical address `0x2000` with the entries `bytes`. -/
def madtTable (bytes : List (BitVec 8)) (a : ℕ) : BitVec 8 :=
  ([0x41#8, 0x50#8, 0x49#8, 0x43#8, BitVec.ofNat 8 (acpiMadtSize + bytes.length)] ++
    List.replicate 39 0#8 ++ bytes).getD (a - (kernelIoVirtualBase + 0x2000)) 0#8

/-- The variables when the kernel starts. -/
def AcpiGlobals.initial : AcpiGlobals where
  processors _ := 0
  processorCount := 1
  isos _ := 0
  isoAmount := 0
  ioApicBase := 0

/-- The entry of a processor. -/
def processorEntry : List (BitVec 8) := [0#8, 8#8, 1#8, 1#8, 1#8, 0#8, 0#8, 0#8]

/-- The entry of an I/O APIC at `0xFEC00000`. -/
def ioApicEntry : List (BitVec 8) :=
  [1#8, 12#8, 0#8, 0#8, 0#8, 0#8, 0xC0#8, 0xFE#8, 0#8, 0#8, 0#8, 0#8]

/-- The entry of an override of interrupt 0 by interrupt 2. -/
def overrideEntry : List (BitVec 8) :=
  [2#8, 10#8, 0#8, 0#8, 2#8, 0#8, 0#8, 0#8, 0#8, 0#8]

/-- Where the entries of these tables begin. -/
abbrev entriesStart : ℕ := kernelIoVirtualBase + 0x202C

/-- The walk through a table with one processor. -/
theorem madtWalk_safe_iff_processor :
    MadtWalkSafe (madtTable processorEntry) (vmGetIoMapping 0x2000) .initial :=
  (madtWalk_safe_iff _ (by decide) ⟨rfl, rfl⟩).mpr ⟨[entriesStart],
    .cons (by decide +kernel) (by decide +kernel) (.done (by decide +kernel)),
    by decide +kernel, by decide +kernel⟩

/-- **An entry of length 0** is visited for ever. -/
theorem madtWalk_unsafe : acpiMadtSize ≤ field (madtTable [4#8, 0#8]) (vmGetIoMapping 0x2000) 4 4 ∧
    ¬ MadtWalkSafe (madtTable [4#8, 0#8]) (vmGetIoMapping 0x2000) .initial := by
  refine ⟨by decide +kernel, ?_⟩
  rintro ⟨fuel, s', hwalk, -⟩
  exact walk_of_stuck (by decide +kernel) (by decide +kernel) hwalk

/-- The walk ends with the overrides of the table, and with the I/O APIC that comes last. -/
def MadtWalkRecords (mem : ℕ → BitVec 8) (madt : ℕ) (s : AcpiGlobals) (entries : List ℕ) : Prop :=
  ∃ fuel s', madtWalk mem madt fuel s = some (.ok s') ∧
    (List.range s'.isoAmount).map s'.isos = entriesOf mem 2 entries ∧
    s'.ioApicBase = ioApicOf mem s.ioApicBase entries

theorem filter_recordedOf (entries : List ℕ) :
    (recordedOf mem entries).filter (fun entry ↦ madtType mem entry = 2) =
      entriesOf mem 2 entries := by
  rw [recordedOf, entriesOf, List.filter_filter]
  refine List.filter_congr fun entry _ ↦ ?_
  by_cases h : madtType mem entry = 2 <;> simp [h]

theorem filter_not_recordedOf (entries : List ℕ) :
    (recordedOf mem entries).filter (fun entry ↦ !decide (madtType mem entry = 2)) =
      entriesOf mem 1 entries := by
  rw [recordedOf, entriesOf, List.filter_filter]
  refine List.filter_congr fun entry _ ↦ ?_
  by_cases h : madtType mem entry = 2 <;> simp [h]

theorem pairwise_recordedOf (entries : List ℕ) :
    (recordedOf mem entries).Pairwise (fun a b ↦ decide (madtType mem a = 2) = true →
      decide (madtType mem b = 2) = true) ↔
    entries.Pairwise fun a b ↦ madtType mem a = 2 → madtType mem b ≠ 1 := by
  rw [recordedOf, List.pairwise_filter]
  refine List.Pairwise.iff fun a b ↦ ?_
  simp only [decide_eq_true_eq]
  omega

/-- **When the walk records what it should.**  Every I/O APIC is recorded as an override too.  So
there has to be none, or so many that the index has started again, and all of them have to come
before the overrides. -/
theorem madtWalk_records_iff (mem : ℕ → BitVec 8) {phys : ℕ} (hphys : phys ≤ 0xFFFFFFFF)
    {s : AcpiGlobals} (hs : s.Start) {entries : List ℕ}
    (hchain : Chain (madtNext mem) (madtEnd mem (vmGetIoMapping phys))
      (madtFirst (vmGetIoMapping phys)) entries)
    (hisos : (entriesOf mem 2 entries).length ≤ 255) :
    MadtWalkRecords mem (vmGetIoMapping phys) s entries ↔
      (processorsOf mem entries).length ≤ 255 ∧ 256 ∣ (entriesOf mem 1 entries).length ∧
      entries.Pairwise fun a b ↦ madtType mem a = 2 → madtType mem b ≠ 1 := by
  have hring := @map_ring_eq_filter_iff ℕ s.isos (recordedOf mem entries) 256
    (fun entry ↦ madtType mem entry = 2) (by rw [filter_recordedOf]; omega)
  rw [filter_recordedOf, filter_not_recordedOf, pairwise_recordedOf] at hring
  rw [← hring]
  constructor
  · rintro ⟨fuel, s', hwalk, hmap, -⟩
    obtain ⟨entries', hchain', hroom, rfl, -⟩ := madtWalk_ok hphys hs hwalk
    rw [← hchain.unique hchain'] at hroom hmap
    exact ⟨hroom, hmap⟩
  · rintro ⟨hroom, hmap⟩
    exact ⟨_, _, madtWalk_of_chain hs hchain hroom, hmap, rfl⟩

/-- A table with a processor and an override. -/
theorem madtWalk_records_iff_override :
    MadtWalkRecords (madtTable (processorEntry ++ overrideEntry)) (vmGetIoMapping 0x2000) .initial
      [entriesStart, entriesStart + 8] :=
  (madtWalk_records_iff _ (by decide) ⟨rfl, rfl⟩
    (.cons (by decide +kernel) (by decide +kernel) <|
      .cons (by decide +kernel) (by decide +kernel) <| .done (by decide +kernel))
    (by decide +kernel)).mpr ⟨by decide +kernel, by decide +kernel, by decide +kernel⟩

/-- **An I/O APIC is recorded as an override.** -/
theorem madtWalk_records_ioApic :
    Chain (madtNext (madtTable (ioApicEntry ++ overrideEntry)))
      (madtEnd (madtTable (ioApicEntry ++ overrideEntry)) (vmGetIoMapping 0x2000))
      (madtFirst (vmGetIoMapping 0x2000)) [entriesStart, entriesStart + 12] ∧
    entriesOf (madtTable (ioApicEntry ++ overrideEntry)) 2 [entriesStart, entriesStart + 12] =
      [entriesStart + 12] ∧
    ¬ MadtWalkRecords (madtTable (ioApicEntry ++ overrideEntry)) (vmGetIoMapping 0x2000) .initial
      [entriesStart, entriesStart + 12] := by
  have hchain : Chain (madtNext (madtTable (ioApicEntry ++ overrideEntry)))
      (madtEnd (madtTable (ioApicEntry ++ overrideEntry)) (vmGetIoMapping 0x2000))
      (madtFirst (vmGetIoMapping 0x2000)) [entriesStart, entriesStart + 12] :=
    .cons (by decide +kernel) (by decide +kernel) <|
      .cons (by decide +kernel) (by decide +kernel) <| .done (by decide +kernel)
  refine ⟨hchain, by decide +kernel, ?_⟩
  rintro ⟨fuel, s', hwalk, hmap, -⟩
  obtain ⟨entries, hchain', -, rfl, -⟩ := madtWalk_ok (by decide) ⟨rfl, rfl⟩ hwalk
  rw [← hchain.unique hchain'] at hmap
  revert hmap
  decide +kernel

end Walk

end CubikOS

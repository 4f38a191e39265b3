import CubikOS.Lib.Bytes
import CubikOS.Mm.Nested

/-!
# The tables of the firmware

`ACPI_FindTable` and what it calls, from `Kernel/arch/x86_64/impl-acpi.c`, and `memcmp` of
`Kernel/src/mm/memory.c`.

The firmware leaves a table of the physical addresses of all other tables: the RSDT with 32-bit
addresses, or the XSDT with 64-bit ones.  In both of them the addresses begin behind a header of 36
bytes.  `acpi_xsdt_t` is not packed though, so the array of 64-bit numbers in it begins at byte 40.
A search that finds nothing does not return a value: what the caller gets is what was left in the
register.

The tables are read through the window onto the low 4 GiB.  For an address from there on
`VM_GetIOMapping` gives `0xFFFFFFFF`, where nothing is mapped, and reading on ends in a fault.

* `findLoop_iff` says what the search finds among the addresses it reads.
* `acpiFindTable_finds_iff` says when that is what was searched for.
-/

set_option autoImplicit false

namespace CubikOS

open Bytes

/-! ## The functions -/

/-- The `n` bytes at offset `off` of what lies at `a`. -/
def field (mem : ℕ → BitVec 8) (a off n : ℕ) : ℕ := readBytes mem ((a + off) % 2 ^ 64) n

/-- The bytes from `a` on. -/
def bytesAt (mem : ℕ → BitVec 8) (a : ℕ) : ℕ → BitVec 8 := fun i ↦ mem ((a + i) % 2 ^ 64)

/-- The loop of `memcmp`, from byte `i` on. -/
def memcmpLoop (a b : ℕ → BitVec 8) : ℕ → ℕ → ℤ
  | 0, _ => 0
  | n + 1, i => if a i ≠ b i then (a i).toNat - (b i).toNat else memcmpLoop a b n (i + 1)

/-- `memcmp(s1, s2, n)`. -/
def memcmp (a b : ℕ → BitVec 8) (n : ℕ) : ℤ := memcmpLoop a b n 0

/-- Whether the `n` bytes at `a` lie in the window, where they are mapped. -/
def ioMapped (a n : ℕ) : Bool :=
  decide (kernelIoVirtualBase ≤ a) && decide (a + n ≤ kernelIoVirtualBase + 2 ^ 32)

/-- Read the `n` bytes at offset `off` of what lies at `a`. -/
def readIo (mem : ℕ → BitVec 8) (a off n : ℕ) : Except Fault ℕ :=
  if ioMapped ((a + off) % 2 ^ 64) n then .ok (field mem a off n) else .error .pageFault

/-- `memcmp` of the bytes at `a`, which are read one by one, with a string: from byte `i` on. -/
def memcmpIo (mem : ℕ → BitVec 8) (a : ℕ) (str : ℕ → BitVec 8) : ℕ → ℕ → Except Fault ℤ
  | 0, _ => .ok 0
  | n + 1, i =>
    if ioMapped ((a + i) % 2 ^ 64) 1 then
      if bytesAt mem a i ≠ str i then .ok ((bytesAt mem a i).toNat - (str i).toNat)
      else memcmpIo mem a str n (i + 1)
    else .error .pageFault

/-- A string of four characters. -/
def signature (a b c d : BitVec 8) : ℕ → BitVec 8
  | 0 => a
  | 1 => b
  | 2 => c
  | 3 => d
  | _ => 0#8

/-- `"DSDT"`. -/
def dsdtSignature : ℕ → BitVec 8 := signature 0x44#8 0x53#8 0x44#8 0x54#8

/-- A `size_t` made an `int`. -/
def intOfSize (n : ℕ) : ℤ := (n : ℤ).bmod (2 ^ 32)

/-- `sizeof(acpi_header_t)`. -/
abbrev acpiHeaderSize : ℕ := 36

/-- What `ACPI_Initialize` has found: `acpiDesc`, `acpiFadt` and the memory they are in. -/
structure AcpiTables where
  /-- The bytes the processor reads. -/
  mem : ℕ → BitVec 8
  /-- `acpiDesc`, or 0. -/
  acpiDesc : ℕ
  /-- `acpiFadt`. -/
  acpiFadt : ℕ

namespace AcpiTables

variable (t : AcpiTables)

/-- `acpiDesc->revision`. -/
def revision : ℕ := field t.mem t.acpiDesc 15 1

/-- `acpiRsdtHeader`, which with revision 2 is `acpiXsdtHeader` too. -/
def acpiRsdtHeader : ℕ :=
  if t.revision = 2 then vmGetIoMapping (field t.mem t.acpiDesc 24 8)
  else vmGetIoMapping (field t.mem t.acpiDesc 16 4)

/-- `acpiRsdtHeader->table.length`. -/
def tableLength : ℕ := field t.mem t.acpiRsdtHeader 4 4

/-- The size of an entry. -/
def entrySize : ℕ := if t.revision = 2 then 8 else 4

/-- `entries` of `ACPI_FindTable`. -/
def entries : ℤ :=
  intOfSize ((t.tableLength + (2 ^ 64 - acpiHeaderSize)) % 2 ^ 64 / t.entrySize)

/-- Where `pointers` begins. -/
def pointersOffset : ℕ := if t.revision = 2 then 40 else 36

/-- The number in the array. -/
def pointer (index : ℕ) : ℕ :=
  field t.mem t.acpiRsdtHeader (t.pointersOffset + t.entrySize * index) t.entrySize

/-- `__acpi_GetEntry(index)`. -/
def acpiGetEntry (index : ℕ) : Except Fault ℕ :=
  readIo t.mem t.acpiRsdtHeader (t.pointersOffset + t.entrySize * index) t.entrySize

/-- The loop of `ACPI_FindTable`, with `n` rounds left. -/
def findLoop (str : ℕ → BitVec 8) (index : ℕ) : ℕ → ℕ → ℕ → Except Fault (Option ℕ)
  | 0, _, _ => .ok none
  | n + 1, i, seen =>
    match t.acpiGetEntry i with
    | .error f => .error f
    | .ok entry =>
      match memcmpIo t.mem (vmGetIoMapping entry) str 4 0 with
      | .error f => .error f
      | .ok r =>
        if r = 0 then
          if seen = index then .ok (some (vmGetIoMapping entry))
          else findLoop str index n (i + 1) (seen + 1)
        else findLoop str index n (i + 1) seen

/-- `ACPI_FindTable(str, index)`.  `junk` is what the register for the result holds when the search
has found nothing. -/
def acpiFindTable (junk : ℕ) (str : ℕ → BitVec 8) (index : ℕ) : Except Fault ℕ :=
  if t.acpiDesc = 0 then .ok 0
  else match readIo t.mem t.acpiRsdtHeader 4 4 with
    | .error f => .error f
    | .ok _ =>
      if memcmp dsdtSignature str 4 = 0 then .ok (vmGetIoMapping (field t.mem t.acpiFadt 40 4))
      else match t.findLoop str index t.entries.toNat 0 0 with
        | .error f => .error f
        | .ok found => .ok (found.getD junk)

/-! ## What is searched for -/

/-- The header at a physical address has the signature. -/
def HasSignature (str : ℕ → BitVec 8) (phys : ℕ) : Prop :=
  ∀ i, i < 4 → bytesAt t.mem (vmGetIoMapping phys) i = str i

instance (str : ℕ → BitVec 8) (phys : ℕ) : Decidable (t.HasSignature str phys) :=
  inferInstanceAs (Decidable (∀ i, i < 4 → _))

/-- How many addresses there are in the table. -/
def tableEntries : ℕ := (t.tableLength - acpiHeaderSize) / t.entrySize

/-- The physical addresses in the table. -/
def table : List ℕ :=
  (List.range t.tableEntries).map fun i ↦
    field t.mem t.acpiRsdtHeader (acpiHeaderSize + t.entrySize * i) t.entrySize

/-- Those of a list of addresses where there is a header with the signature. -/
def matching (str : ℕ → BitVec 8) (addrs : List ℕ) : List ℕ :=
  addrs.filter fun phys ↦ t.HasSignature str phys

/-- What is expected of `ACPI_FindTable(str, index)`, whatever the register holds. -/
def Finds (str : ℕ → BitVec 8) (index : ℕ) : Prop :=
  ∀ junk, t.acpiFindTable junk str index =
    .ok ((((t.matching str t.table)[index]?).map vmGetIoMapping).getD 0)

/-- The `k`-th number that is read leads to a header with the signature, and `index` of those
before it do. -/
def IsMatch (str : ℕ → BitVec 8) (index k : ℕ) : Prop :=
  t.HasSignature str (t.pointer k) ∧
    (t.matching str ((List.range k).map t.pointer)).length = index

/-- The `k`-th number of the array lies in the window. -/
def EntryMapped (k : ℕ) : Prop :=
  ioMapped ((t.acpiRsdtHeader + (t.pointersOffset + t.entrySize * k)) % 2 ^ 64) t.entrySize = true

/-- So do those bytes at a physical address that are compared with the signature: all up to the
first one that differs. -/
def Compared (str : ℕ → BitVec 8) (phys : ℕ) : Prop :=
  ∀ i, i < 4 → (∀ j, j < i → bytesAt t.mem (vmGetIoMapping phys) j = str j) →
    ioMapped ((vmGetIoMapping phys + i) % 2 ^ 64) 1 = true

/-- Both, so that the search gets past the number without a fault. -/
def Reads (str : ℕ → BitVec 8) (k : ℕ) : Prop :=
  t.EntryMapped k ∧ t.Compared str (t.pointer k)

end AcpiTables

/-! ## The search -/

theorem memcmpLoop_eq_zero_iff {a b : ℕ → BitVec 8} {n i : ℕ} :
    memcmpLoop a b n i = 0 ↔ ∀ j, j < n → a (i + j) = b (i + j) := by
  induction n generalizing i with
  | zero => simp [memcmpLoop]
  | succ n ih =>
    rw [memcmpLoop]
    by_cases h : a i = b i
    · rw [if_neg (not_not.mpr h), ih]
      constructor
      · intro hrest j hj
        rcases j with _ | j
        · exact h
        · have := hrest j (by omega)
          rwa [Nat.add_assoc, Nat.add_comm 1] at this
      · intro hall j hj
        have := hall (j + 1) (by omega)
        rwa [Nat.add_comm j, ← Nat.add_assoc] at this
    · rw [if_pos h]
      have hne : (a i).toNat ≠ (b i).toNat := fun heq ↦ h (BitVec.eq_of_toNat_eq heq)
      constructor
      · intro hzero
        omega
      · intro hall
        exact absurd (hall 0 (Nat.succ_pos n)) h

/-- **`memcmp` is 0 if the bytes are the same**, and only then. -/
theorem memcmp_eq_zero_iff {a b : ℕ → BitVec 8} {n : ℕ} :
    memcmp a b n = 0 ↔ ∀ i, i < n → a i = b i := by
  rw [memcmp, memcmpLoop_eq_zero_iff]
  simp only [Nat.zero_add]

/-- **Reading byte by byte** comes to the same, unless one of the bytes is not mapped. -/
theorem memcmpIo_eq_ok_iff {mem : ℕ → BitVec 8} {a n i : ℕ} {str : ℕ → BitVec 8} {r : ℤ} :
    memcmpIo mem a str n i = .ok r ↔
      (∀ k, k < n → (∀ j, j < k → bytesAt mem a (i + j) = str (i + j)) →
        ioMapped ((a + (i + k)) % 2 ^ 64) 1 = true) ∧ r = memcmpLoop (bytesAt mem a) str n i := by
  induction n generalizing i with
  | zero =>
    rw [memcmpIo, memcmpLoop, Except.ok.injEq]
    exact ⟨fun h ↦ ⟨by simp, h.symm⟩, fun h ↦ h.2.symm⟩
  | succ n ih =>
    rw [memcmpIo, memcmpLoop]
    by_cases hmap : ioMapped ((a + i) % 2 ^ 64) 1 = true
    · rw [if_pos hmap]
      by_cases hne : bytesAt mem a i ≠ str i
      · rw [if_pos hne, if_pos hne, Except.ok.injEq, eq_comm, iff_and_self]
        rintro - k - hsame
        rcases k with _ | k
        · exact hmap
        · exact absurd (hsame 0 (Nat.succ_pos k)) hne
      · rw [if_neg hne, if_neg hne, ih]
        refine and_congr_left fun _ ↦ ?_
        constructor
        · intro hall k hk hsame
          rcases k with _ | k
          · exact hmap
          · have := hall k (by omega) fun j hj ↦ by
              have := hsame (j + 1) (by omega)
              rwa [Nat.add_comm j, ← Nat.add_assoc] at this
            rwa [Nat.add_assoc i 1 k, Nat.add_comm 1] at this
        · intro hall k hk hsame
          have := hall (k + 1) (by omega) fun j hj ↦ by
            rcases j with _ | j
            · exact not_not.mp hne
            · have := hsame j (by omega)
              rwa [Nat.add_assoc, Nat.add_comm 1] at this
          rwa [Nat.add_assoc i 1 k, Nat.add_comm 1]
    · rw [if_neg hmap]
      simp only [reduceCtorEq, false_iff, not_and]
      intro hall
      exact absurd (hall 0 (Nat.succ_pos n) (by simp)) hmap

theorem vmGetIoMapping_of_le {phys : ℕ} (h : phys ≤ 0xFFFFFFFF) :
    vmGetIoMapping phys = kernelIoVirtualBase + phys := by
  rw [vmGetIoMapping, if_neg (Nat.not_lt.mpr h)]
  dsimp only [kernelIoVirtualBase]
  omega

theorem vmGetIoMapping_ne_zero (phys : ℕ) : vmGetIoMapping phys ≠ 0 := by
  rcases Nat.lt_or_ge 0xFFFFFFFF phys with hlt | hle
  · rw [vmGetIoMapping, if_pos hlt]
    decide
  · rw [vmGetIoMapping_of_le hle]
    dsimp only [kernelIoVirtualBase]
    omega

/-- Nothing else is mapped where an address below 4 GiB is. -/
theorem vmGetIoMapping_inj {phys other : ℕ} (h : phys ≤ 0xFFFFFFFF) :
    vmGetIoMapping other = vmGetIoMapping phys ↔ other = phys := by
  refine ⟨fun heq ↦ ?_, fun heq ↦ by rw [heq]⟩
  rw [vmGetIoMapping_of_le h] at heq
  rcases Nat.lt_or_ge 0xFFFFFFFF other with hlt | hle
  · rw [vmGetIoMapping, if_pos hlt] at heq
    dsimp only [kernelIoVirtualBase] at heq
    omega
  · rw [vmGetIoMapping_of_le hle] at heq
    omega

theorem field_lt (mem : ℕ → BitVec 8) (a off n : ℕ) : field mem a off n < 256 ^ n :=
  readBytes_lt mem _ n

theorem intOfSize_of_lt {n : ℕ} (h : n < 2 ^ 31) : intOfSize n = n :=
  Int.bmod_eq_of_le (by omega) (by omega)

namespace AcpiTables

variable {t : AcpiTables} {str : ℕ → BitVec 8} {index : ℕ}

theorem matching_cons_of_pos {phys : ℕ} {addrs : List ℕ} (h : t.HasSignature str phys) :
    t.matching str (phys :: addrs) = phys :: t.matching str addrs :=
  List.filter_cons_of_pos (decide_eq_true h)

theorem matching_cons_of_neg {phys : ℕ} {addrs : List ℕ} (h : ¬ t.HasSignature str phys) :
    t.matching str (phys :: addrs) = t.matching str addrs :=
  List.filter_cons_of_neg (ne_true_of_eq_false (decide_eq_false h))

theorem matching_append (addrs rest : List ℕ) :
    t.matching str (addrs ++ rest) = t.matching str addrs ++ t.matching str rest :=
  List.filter_append addrs rest

/-- One round of the search. -/
theorem findLoop_succ {n i seen : ℕ} (hreads : t.Reads str i) :
    t.findLoop str index (n + 1) i seen =
      if t.HasSignature str (t.pointer i) then
        if seen = index then .ok (some (vmGetIoMapping (t.pointer i)))
        else t.findLoop str index n (i + 1) (seen + 1)
      else t.findLoop str index n (i + 1) seen := by
  have hentry : t.acpiGetEntry i = .ok (t.pointer i) := if_pos hreads.1
  have hcompare : memcmpIo t.mem (vmGetIoMapping (t.pointer i)) str 4 0 =
      .ok (memcmp (bytesAt t.mem (vmGetIoMapping (t.pointer i))) str 4) :=
    memcmpIo_eq_ok_iff.mpr ⟨by simp only [Nat.zero_add]; exact hreads.2, rfl⟩
  rw [findLoop, hentry]
  dsimp only
  rw [hcompare]
  exact if_congr memcmp_eq_zero_iff rfl rfl

/-- The search does not get past a number that it cannot read. -/
theorem reads_of_findLoop {n i seen : ℕ} {r : Option ℕ}
    (hrun : t.findLoop str index (n + 1) i seen = .ok r) : t.Reads str i := by
  rw [findLoop, acpiGetEntry, readIo] at hrun
  split at hrun
  · simp at hrun
  · rename_i entry hentry
    split at hentry
    · rename_i hmap
      rw [Except.ok.injEq] at hentry
      subst hentry
      refine ⟨hmap, ?_⟩
      split at hrun
      · simp at hrun
      · rename_i hcompare
        have hall := (memcmpIo_eq_ok_iff.mp hcompare).1
        simp only [Nat.zero_add] at hall
        exact hall
    · simp at hentry

/-- A search that comes to the `i`-th number with `seen` matches ends at the `k`-th one from there:
all of them up to that one can be read, it is a match, and so are as many before it as are still
wanted. -/
def EndsAt (t : AcpiTables) (str : ℕ → BitVec 8) (index seen i k : ℕ) : Prop :=
  (∀ j, j ≤ k → t.Reads str (i + j)) ∧ t.HasSignature str (t.pointer (i + k)) ∧
    seen + (t.matching str ((List.range' i k).map t.pointer)).length = index

theorem endsAt_zero {i seen : ℕ} (hreads : t.Reads str i) :
    t.EndsAt str index seen i 0 ↔ t.HasSignature str (t.pointer i) ∧ seen = index := by
  have hall : ∀ j, j ≤ 0 → t.Reads str (i + j) := fun j hj ↦ by rwa [Nat.le_zero.mp hj]
  exact ⟨fun h ↦ h.2, fun h ↦ ⟨hall, h⟩⟩

/-- What comes after the first number. -/
theorem endsAt_succ {i seen k : ℕ} (hreads : t.Reads str i) :
    t.EndsAt str index seen i (k + 1) ↔
      t.EndsAt str index (if t.HasSignature str (t.pointer i) then seen + 1 else seen) (i + 1)
        k := by
  have hshift : ∀ j, i + 1 + j = i + (j + 1) := fun j ↦ by omega
  have hall : (∀ j, j ≤ k + 1 → t.Reads str (i + j)) ↔ ∀ j, j ≤ k → t.Reads str (i + 1 + j) := by
    constructor
    · intro h j hj
      rw [hshift]
      exact h (j + 1) (by omega)
    · intro h j hj
      rcases j with _ | j
      · exact hreads
      · rw [← hshift]
        exact h j (by omega)
  have hcons : (List.range' i (k + 1)).map t.pointer =
      t.pointer i :: (List.range' (i + 1) k).map t.pointer := by
    rw [List.range'_succ, List.map_cons]
  rw [EndsAt, EndsAt, hall, hshift k, hcons]
  by_cases hsig : t.HasSignature str (t.pointer i)
  · rw [matching_cons_of_pos hsig, if_pos hsig, List.length_cons, add_right_comm seen 1,
      add_assoc seen]
  · rw [matching_cons_of_neg hsig, if_neg hsig]

/-- **What the search finds**: the address at which it ends. -/
theorem findLoop_iff {n i seen a : ℕ} :
    t.findLoop str index n i seen = .ok (some a) ↔
      ∃ k, k < n ∧ t.EndsAt str index seen i k ∧ a = vmGetIoMapping (t.pointer (i + k)) := by
  induction n generalizing i seen with
  | zero => simp [findLoop]
  | succ n ih =>
    by_cases hreads : t.Reads str i
    · have hshift : ∀ k, i + 1 + k = i + (k + 1) := fun k ↦ by omega
      have hrest : ∀ seen, t.findLoop str index n (i + 1) seen = .ok (some a) ↔
          ∃ k, k < n ∧ t.EndsAt str index seen (i + 1) k ∧
            a = vmGetIoMapping (t.pointer (i + (k + 1))) := fun seen ↦ by simp only [ih, hshift]
      rw [findLoop_succ hreads, Nat.exists_lt_succ_left]
      simp only [endsAt_zero hreads, endsAt_succ hreads, Nat.add_zero]
      by_cases hsig : t.HasSignature str (t.pointer i)
      · simp only [hsig, if_true, true_and]
        rcases eq_or_ne seen index with rfl | hlast
        · -- one more match would be one too many
          have hnone : ∀ k, ¬ t.EndsAt str seen (seen + 1) (i + 1) k := fun k h ↦ by
            have := h.2.2
            omega
          simp only [hnone, if_true, true_and, false_and, and_false, exists_false, or_false,
            Except.ok.injEq, Option.some.injEq]
          exact eq_comm
        · rw [if_neg hlast, hrest]
          simp only [hlast, false_and, false_or]
      · rw [if_neg hsig, hrest]
        simp only [hsig, if_false, false_and, false_or]
    · constructor
      · intro hrun
        exact absurd (reads_of_findLoop hrun) hreads
      · rintro ⟨k, -, ⟨hr, -⟩, -⟩
        exact absurd (hr 0 (Nat.zero_le k)) hreads

/-- The number of rounds. -/
theorem entries_eq (hlen : acpiHeaderSize ≤ t.tableLength) : t.entries = t.tableEntries := by
  have hlt := field_lt t.mem t.acpiRsdtHeader 4 4
  rw [← tableLength] at hlt
  have hsize : 4 ≤ t.entrySize := by
    rw [entrySize]
    split <;> decide
  have hsub : (t.tableLength + (2 ^ 64 - acpiHeaderSize)) % 2 ^ 64 =
      t.tableLength - acpiHeaderSize := by
    dsimp only [acpiHeaderSize] at *
    omega
  have hdiv : (t.tableLength - acpiHeaderSize) / t.entrySize ≤
      (t.tableLength - acpiHeaderSize) / 4 := Nat.div_le_div_left hsize (by decide)
  rw [entries, hsub, tableEntries]
  refine intOfSize_of_lt ?_
  dsimp only [acpiHeaderSize] at *
  omega

/-- What is mapped behind the header of the table is mapped with the header. -/
theorem EntryMapped.header (h : t.EntryMapped 0) :
    ioMapped ((t.acpiRsdtHeader + 4) % 2 ^ 64) 4 = true := by
  have hheader : t.acpiRsdtHeader = 0xFFFFFFFF ∨ ∃ phys, phys ≤ 0xFFFFFFFF ∧
      t.acpiRsdtHeader = kernelIoVirtualBase + phys := by
    have hmapping : ∀ phys, vmGetIoMapping phys = 0xFFFFFFFF ∨ ∃ q, q ≤ 0xFFFFFFFF ∧
        vmGetIoMapping phys = kernelIoVirtualBase + q := by
      intro phys
      rcases Nat.lt_or_ge 0xFFFFFFFF phys with hlt | hle
      · exact Or.inl (by rw [vmGetIoMapping, if_pos hlt])
      · exact Or.inr ⟨phys, hle, vmGetIoMapping_of_le hle⟩
    rw [acpiRsdtHeader]
    split
    · exact hmapping _
    · exact hmapping _
  have hoff : 36 ≤ t.pointersOffset ∧ t.pointersOffset ≤ 40 := by
    rw [pointersOffset]
    split <;> omega
  rw [EntryMapped, ioMapped, Bool.and_eq_true, decide_eq_true_eq, decide_eq_true_eq, Nat.mul_zero,
    Nat.add_zero] at h
  rw [ioMapped, Bool.and_eq_true, decide_eq_true_eq, decide_eq_true_eq]
  dsimp only [kernelIoVirtualBase] at *
  rcases hheader with hheader | ⟨phys, hle, hheader⟩ <;> rw [hheader] at h ⊢ <;> omega

/-- **What `ACPI_FindTable` returns**, if there is something to be found. -/
theorem acpiFindTable_eq_iff {a : ℕ} (hdesc : t.acpiDesc ≠ 0)
    (hlen : acpiHeaderSize ≤ t.tableLength) (hstr : ¬ ∀ i, i < 4 → dsdtSignature i = str i) :
    (∀ junk, t.acpiFindTable junk str index = .ok a) ↔
      ∃ k, k < t.tableEntries ∧ (∀ j, j ≤ k → t.Reads str j) ∧ t.IsMatch str index k ∧
        a = vmGetIoMapping (t.pointer k) := by
  have hloop : t.findLoop str index t.entries.toNat 0 0 = .ok (some a) ↔
      ∃ k, k < t.tableEntries ∧ (∀ j, j ≤ k → t.Reads str j) ∧ t.IsMatch str index k ∧
        a = vmGetIoMapping (t.pointer k) := by
    rw [findLoop_iff, entries_eq hlen, Int.toNat_natCast]
    simp only [EndsAt, Nat.zero_add, ← List.range_eq_range', IsMatch, and_assoc]
  have hdsdt : ¬ memcmp dsdtSignature str 4 = 0 := fun h ↦ hstr (memcmp_eq_zero_iff.mp h)
  rw [← hloop]
  constructor
  · intro hall
    have h1 := hall (a + 1)
    have h2 := hall a
    rw [acpiFindTable, if_neg hdesc] at h1 h2
    split at h1
    · simp at h1
    · rw [if_neg hdsdt] at h1
      split at h1
      · simp at h1
      · rename_i found hfound
        rw [hfound]
        cases found with
        | some b =>
          rw [Option.getD_some, Except.ok.injEq] at h1
          rw [h1]
        | none =>
          -- whatever is expected, there is another number
          rw [Option.getD_none, Except.ok.injEq] at h1
          omega
  · intro hfound junk
    obtain ⟨k, -, hreads, -, -⟩ := hloop.mp hfound
    have hread : readIo t.mem t.acpiRsdtHeader 4 4 = .ok (field t.mem t.acpiRsdtHeader 4 4) :=
      if_pos (hreads 0 (Nat.zero_le k)).1.header
    rw [acpiFindTable, if_neg hdesc, hread]
    dsimp only
    rw [if_neg hdsdt, hfound]
    rfl

theorem length_table : t.table.length = t.tableEntries := by
  rw [table, List.length_map, List.length_range]

theorem pointer_eq_getElem (h : t.revision ≠ 2) {k : ℕ} (hk : k < t.tableEntries) :
    t.table[k]? = some (t.pointer k) := by
  rw [table, List.getElem?_map, List.getElem?_range hk, Option.map_some, pointer, pointersOffset,
    if_neg h]

/-- With 32-bit addresses, what is read is what is in the table. -/
theorem IsMatch.getElem (h : t.revision ≠ 2) {k : ℕ} (hk : k < t.tableEntries)
    (hmatch : t.IsMatch str index k) : (t.matching str t.table)[index]? = some (t.pointer k) := by
  have htable : t.table = (List.range k).map t.pointer ++
      t.pointer k :: t.table.drop (k + 1) := by
    have hlt : k < t.table.length := by rwa [length_table]
    have hget : t.table[k] = t.pointer k :=
      Option.some.inj ((List.getElem?_eq_getElem hlt).symm.trans (pointer_eq_getElem h hk))
    have htake : t.table.take k = (List.range k).map t.pointer := by
      rw [table, ← List.map_take, List.take_range, Nat.min_eq_left (Nat.le_of_lt hk)]
      refine List.map_congr_left fun i _ ↦ ?_
      rw [pointer, pointersOffset, if_neg h]
    rw [← htake, ← hget, List.getElem_cons_drop, List.take_append_drop]
  rw [htable, matching_append, matching_cons_of_pos hmatch.1,
    List.getElem?_append_right (Nat.le_of_eq hmatch.2), hmatch.2, Nat.sub_self]
  rfl

/-- With revision 2, what is read is the upper half of one address and the lower half of the
next. -/
theorem pointer_of_revision (h : t.revision = 2) (htable : ∀ phys ∈ t.table, phys ≤ 0xFFFFFFFF)
    {i : ℕ} (hi : i < t.tableEntries) (hle : t.pointer i ≤ 0xFFFFFFFF) : t.pointer i = 0 := by
  have hentry := htable _ (List.mem_map.mpr ⟨i, List.mem_range.mpr hi, rfl⟩)
  rw [entrySize, if_pos h, field, readBytes_add _ 4 4 (Nat.mod_lt _ (by decide))] at hentry
  rw [pointer, pointersOffset, if_pos h, entrySize, if_pos h, field,
    readBytes_add _ 4 4 (Nat.mod_lt _ (by decide))] at hle ⊢
  have haddr : ((t.acpiRsdtHeader + (acpiHeaderSize + 8 * i)) % 2 ^ 64 + 4) % 2 ^ 64 =
      (t.acpiRsdtHeader + (40 + 8 * i)) % 2 ^ 64 := by
    rw [Nat.mod_add_mod]
    dsimp only [acpiHeaderSize]
    omega
  rw [haddr] at hentry
  omega

/-- Nothing from 4 GiB on can be compared. -/
theorem Compared.le {phys : ℕ} (h : t.Compared str phys) : phys ≤ 0xFFFFFFFF := by
  by_contra hlt
  have hmap := h 0 (by decide) (by simp)
  rw [vmGetIoMapping, if_pos (Nat.not_le.mp hlt)] at hmap
  exact absurd hmap (by decide)

/-- The first bytes of the memory can. -/
theorem compared_zero : t.Compared str 0 := by
  intro i hi _
  have hall : ∀ i < 4, ioMapped ((vmGetIoMapping 0 + i) % 2 ^ 64) 1 = true := by decide
  exact hall i hi

theorem mem_of_matching {addrs : List ℕ} {phys : ℕ}
    (h : (t.matching str addrs)[index]? = some phys) : phys ∈ addrs :=
  (List.mem_filter.mp (List.mem_of_getElem? h)).1

theorem lt_of_matching {phys : ℕ} (h : (t.matching str t.table)[index]? = some phys) :
    index < t.tableEntries := by
  rw [← length_table]
  exact (List.getElem?_eq_some_iff.mp h).1.trans_le (List.length_filter_le _ _)

/-- Numbers that are all 0 match together, or not at all. -/
theorem length_matching_zero (hsig : t.HasSignature str 0) {k : ℕ}
    (hzero : ∀ j, j < k → t.pointer j = 0) :
    (t.matching str ((List.range k).map t.pointer)).length = k := by
  rw [matching, List.filter_eq_self.mpr, List.length_map, List.length_range]
  intro phys hphys
  obtain ⟨j, hj, rfl⟩ := List.mem_map.mp hphys
  rw [hzero j (List.mem_range.mp hj)]
  exact decide_eq_true hsig

/-- A table is found if what is read is what is in the table, at the place in question. -/
theorem finds_iff (hdesc : t.acpiDesc ≠ 0) (hlen : acpiHeaderSize ≤ t.tableLength)
    (htable : ∀ phys ∈ t.table, phys ≤ 0xFFFFFFFF)
    (hstr : ¬ ∀ i, i < 4 → dsdtSignature i = str i) :
    t.Finds str index ↔ ∃ k, k < t.tableEntries ∧ (∀ j, j ≤ k → t.Reads str j) ∧
      t.IsMatch str index k ∧ (t.matching str t.table)[index]? = some (t.pointer k) := by
  rw [Finds, acpiFindTable_eq_iff hdesc hlen hstr]
  refine exists_congr fun k ↦ and_congr_right fun _ ↦ and_congr_right fun _ ↦
    and_congr_right fun _ ↦ ?_
  rcases hwant : (t.matching str t.table)[index]? with _ | phys
  · simpa using (vmGetIoMapping_ne_zero (t.pointer k)).symm
  · have hle := htable phys (mem_of_matching hwant)
    rw [Option.map_some, Option.getD_some, Option.some.injEq, eq_comm, vmGetIoMapping_inj hle,
      eq_comm]

/-- **When a table is found.**  With 32-bit addresses it is found if it is there and can be read; if
it is not there, the result is left to chance.  With 64-bit addresses no table is found that lies
anywhere but at 0. -/
theorem acpiFindTable_finds_iff (t : AcpiTables) {str : ℕ → BitVec 8} (index : ℕ)
    (hdesc : t.acpiDesc ≠ 0) (hlen : acpiHeaderSize ≤ t.tableLength)
    (htable : ∀ phys ∈ t.table, phys ≤ 0xFFFFFFFF)
    (hstr : ¬ ∀ i, i < 4 → dsdtSignature i = str i) :
    t.Finds str index ↔
      t.revision ≠ 2 ∧ (∃ k, k < t.tableEntries ∧ t.IsMatch str index k ∧
        ∀ j, j ≤ k → t.Reads str j) ∨
      t.revision = 2 ∧ (∀ j, j ≤ index → t.EntryMapped j ∧ t.pointer j = 0) ∧
        t.HasSignature str 0 ∧ (t.matching str t.table)[index]? = some 0 := by
  rw [finds_iff hdesc hlen htable hstr]
  by_cases hrev : t.revision = 2
  · constructor
    · rintro ⟨k, hk, hreads, ⟨hsig, hcount⟩, hwant⟩
      have hzero : ∀ j, j ≤ k → t.pointer j = 0 := fun j hj ↦
        pointer_of_revision hrev htable (by omega) (hreads j hj).2.le
      rw [hzero k le_rfl] at hsig hwant
      obtain rfl : k = index := by
        rw [← hcount, length_matching_zero hsig fun j hj ↦ hzero j hj.le]
      exact Or.inr ⟨hrev, fun j hj ↦ ⟨(hreads j hj).1, hzero j hj⟩, hsig, hwant⟩
    · rintro (⟨hne, -⟩ | ⟨-, hzero, hsig, hwant⟩)
      · exact absurd hrev hne
      · refine ⟨index, lt_of_matching hwant, fun j hj ↦ ⟨(hzero j hj).1, ?_⟩, ⟨?_, ?_⟩, ?_⟩
        · rw [(hzero j hj).2]
          exact compared_zero
        · rwa [(hzero index le_rfl).2]
        · exact length_matching_zero hsig fun j hj ↦ (hzero j hj.le).2
        · rw [hwant, (hzero index le_rfl).2]
  · constructor
    · rintro ⟨k, hk, hreads, hmatch, -⟩
      exact Or.inl ⟨hrev, k, hk, hmatch, hreads⟩
    · rintro (⟨-, k, hk, hmatch, hreads⟩ | ⟨h, -⟩)
      · exact ⟨k, hk, hreads, hmatch, hmatch.getElem hrev hk⟩
      · exact absurd h hrev

end AcpiTables

/-- `"APIC"`. -/
def apicSignature : ℕ → BitVec 8 := signature 0x41#8 0x50#8 0x49#8 0x43#8

/-- The bytes of the low 4 GiB that are not 0: an RSDT at `0x1000` with two addresses, and behind
the first a table with the signature `"MCFG"`, behind the second one with `"APIC"`. -/
def twoTablesBytes : List (ℕ × BitVec 8) :=
  [(0xE0011, 0x10#8), (0x1004, 0x2C#8), (0x1025, 0x20#8), (0x1029, 0x30#8),
    (0x2000, 0x4D#8), (0x2001, 0x43#8), (0x2002, 0x46#8), (0x2003, 0x47#8),
    (0x3000, 0x41#8), (0x3001, 0x50#8), (0x3002, 0x49#8), (0x3003, 0x43#8)]

/-- The firmware has left two tables. -/
def twoTables : AcpiTables where
  mem a := (twoTablesBytes.lookup (a - kernelIoVirtualBase)).getD 0#8
  acpiDesc := kernelIoVirtualBase + 0xE0000
  acpiFadt := 0

/-- The second one is found. -/
theorem acpiFindTable_finds_iff_apic : twoTables.Finds apicSignature 0 := by
  refine (AcpiTables.acpiFindTable_finds_iff twoTables 0 (by decide) (by decide +kernel)
    (by decide +kernel) (by decide)).mpr (Or.inl ⟨by decide +kernel, 1, by decide +kernel,
    ⟨by decide +kernel, by decide +kernel⟩, ?_⟩)
  have hall : ∀ j < 2, ioMapped ((twoTables.acpiRsdtHeader +
      (twoTables.pointersOffset + twoTables.entrySize * j)) % 2 ^ 64) twoTables.entrySize = true ∧
      ∀ i < 4, ioMapped ((vmGetIoMapping (twoTables.pointer j) + i) % 2 ^ 64) 1 = true := by
    decide +kernel
  exact fun j hj ↦ ⟨(hall j (by omega)).1, fun i hi _ ↦ (hall j (by omega)).2 i hi⟩

/-- `"HPET"`. -/
def hpetSignature : ℕ → BitVec 8 := signature 0x48#8 0x50#8 0x45#8 0x54#8

/-- **A table that is not there is found**, anywhere. -/
theorem acpiFindTable_finds_nothing : twoTables.matching hpetSignature twoTables.table = [] ∧
    twoTables.acpiFindTable 0xDEADBEEF hpetSignature 0 = .ok 0xDEADBEEF ∧
    ¬ twoTables.Finds hpetSignature 0 := by
  have hnone : twoTables.matching hpetSignature twoTables.table = [] := by decide +kernel
  have hjunk : twoTables.acpiFindTable 0xDEADBEEF hpetSignature 0 = .ok 0xDEADBEEF := by
    decide +kernel
  refine ⟨hnone, hjunk, fun h ↦ ?_⟩
  have hnull := h 0xDEADBEEF
  rw [hjunk, hnone] at hnull
  exact absurd hnull (by decide)

end CubikOS

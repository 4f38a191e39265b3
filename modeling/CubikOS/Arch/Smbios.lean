import CubikOS.Arch.Acpi

/-!
# The entry point of the SMBIOS

`SMBIOS_Initialize` and `__smbios_Checksum` of `Kernel/arch/x86_64/smbios.c`.

The firmware leaves an entry point at one of the addresses from `0xF0000` up to `0xFFFFF` that are
multiples of 16.  There are two kinds, with different signatures, and with the length of the entry
point in different places.  Its bytes add up to 0.

`memcmp` returns 0 if the bytes are the same, so it is the other way round for what is searched: any
16 bytes are taken for an entry point of version 2, as long as they are none and add up to 0, and an
entry point of version 2 is taken for one of version 3.  The length is looked up where version 2 has
it.

* `smbiosInitialize_eq` says that the first place is taken that will do.
* `smbiosAt_eq` says which places will do.
* `smbiosInitialize_finds_iff` says when that is what was searched for.
-/

set_option autoImplicit false

namespace CubikOS

open Bytes

/-! ## The functions -/

/-- `"_SM_"`. -/
def smbiosSignatureL2 : ℕ → BitVec 8 := signature 0x5F#8 0x53#8 0x4D#8 0x5F#8

/-- `"_SM3_"`. -/
def smbiosSignatureL3 : ℕ → BitVec 8
  | 4 => 0x5F#8
  | i => signature 0x5F#8 0x53#8 0x4D#8 0x33#8 i

/-- The sum of the first `n` bytes. -/
def sumBytes (bytes : ℕ → BitVec 8) : ℕ → BitVec 8
  | 0 => 0#8
  | n + 1 => sumBytes bytes n + bytes n

/-- `__smbios_Checksum(address)`. -/
def smbiosChecksum (mem : ℕ → BitVec 8) (address : ℕ) : Bool :=
  let length := (bytesAt mem address 0x5).toNat
  sumBytes (bytesAt mem address) length = 0#8

/-- `g_SmbiosVersion` and `SmbiosInfo`. -/
structure Smbios where
  /-- The version of the entry point. -/
  version : ℕ
  /-- Where it is. -/
  info : ℕ
deriving DecidableEq

/-- One round of the search. -/
def smbiosAt (mem : ℕ → BitVec 8) (address : ℕ) : Option Smbios :=
  if memcmp (bytesAt mem address) smbiosSignatureL2 4 ≠ 0 ∧ smbiosChecksum mem address then
    some ⟨2, address⟩
  else if memcmp (bytesAt mem address) smbiosSignatureL3 5 ≠ 0 ∧ smbiosChecksum mem address then
    some ⟨3, address⟩
  else none

/-- The search from `address` on. -/
def smbiosLoop (mem : ℕ → BitVec 8) : ℕ → ℕ → Option Smbios
  | 0, _ => none
  | fuel + 1, address =>
    if address < 0x100000 + kernelIoVirtualBase then
      match smbiosAt mem address with
      | some found => some found
      | none => smbiosLoop mem fuel ((address + 0x10) % 2 ^ 64)
    else none

/-- `SMBIOS_Initialize()`, which panics if there is nothing. -/
def smbiosInitialize (mem : ℕ → BitVec 8) : Option Smbios :=
  smbiosLoop mem (2 ^ 64) (0xF0000 + kernelIoVirtualBase)

/-! ## What is searched for -/

/-- The addresses in question. -/
def smbiosAddress (i : ℕ) : ℕ := 0xF0000 + kernelIoVirtualBase + 0x10 * i

/-- The first `n` bytes of a signature are at an address. -/
def Spells (mem sig : ℕ → BitVec 8) (n address : ℕ) : Prop :=
  ∀ i, i < n → bytesAt mem address i = sig i

instance (mem sig : ℕ → BitVec 8) (n address : ℕ) : Decidable (Spells mem sig n address) :=
  inferInstanceAs (Decidable (∀ i, i < n → _))

/-- An entry point with the signature `sig`, which is `n` bytes long, and its length at `off`. -/
def IsEntryPoint (mem sig : ℕ → BitVec 8) (n off address : ℕ) : Prop :=
  Spells mem sig n address ∧
    sumBytes (bytesAt mem address) (bytesAt mem address off).toNat = 0#8

instance (mem sig : ℕ → BitVec 8) (n off address : ℕ) :
    Decidable (IsEntryPoint mem sig n off address) :=
  inferInstanceAs (Decidable (_ ∧ _))

/-- The entry point at an address, if there is one. -/
def entryPoint (mem : ℕ → BitVec 8) (address : ℕ) : Option Smbios :=
  if IsEntryPoint mem smbiosSignatureL2 4 5 address then some ⟨2, address⟩
  else if IsEntryPoint mem smbiosSignatureL3 5 6 address then some ⟨3, address⟩
  else none

/-- The entry point at the lowest address. -/
def lowestEntryPoint (mem : ℕ → BitVec 8) : Option Smbios :=
  (List.range 4096).findSome? fun i ↦ entryPoint mem (smbiosAddress i)

/-! ## The search -/

variable {mem : ℕ → BitVec 8}

/-- The search from one of the addresses on. -/
theorem smbiosLoop_eq {fuel n i : ℕ} (hn : i + n = 4096) (hfuel : n < fuel) :
    smbiosLoop mem fuel (smbiosAddress i) =
      (List.range' i n).findSome? fun i ↦ smbiosAt mem (smbiosAddress i) := by
  induction n generalizing fuel i with
  | zero =>
    obtain ⟨fuel, rfl⟩ := Nat.exists_eq_add_one_of_ne_zero (Nat.ne_zero_of_lt hfuel)
    rw [smbiosLoop, if_neg (by rw [smbiosAddress]; omega)]
    rfl
  | succ n ih =>
    obtain ⟨fuel, rfl⟩ := Nat.exists_eq_add_one_of_ne_zero (Nat.ne_zero_of_lt hfuel)
    have hnext : (smbiosAddress i + 0x10) % 2 ^ 64 = smbiosAddress (i + 1) := by
      dsimp only [smbiosAddress, kernelIoVirtualBase]
      omega
    rw [smbiosLoop, if_pos (by rw [smbiosAddress]; omega), List.range'_succ,
      List.findSome?_cons, hnext, ih (by omega) (by omega)]
    rcases smbiosAt mem (smbiosAddress i) with _ | found <;> rfl

/-- **The first place is taken that will do.** -/
theorem smbiosInitialize_eq : smbiosInitialize mem =
    (List.range 4096).findSome? fun i ↦ smbiosAt mem (smbiosAddress i) := by
  rw [List.range_eq_range']
  exact @smbiosLoop_eq mem (2 ^ 64) 4096 0 rfl (by decide)

/-- A place has one signature at most. -/
theorem not_signatureL3 {address : ℕ} (h : Spells mem smbiosSignatureL2 4 address) :
    ¬ Spells mem smbiosSignatureL3 5 address := by
  intro h3
  have := (h 3 (by decide)).symm.trans (h3 3 (by decide))
  exact absurd this (by decide)

/-- **Which places will do**: those where the checksum is right, if the length is taken from byte 5.
The version is wrong. -/
theorem smbiosAt_eq (address : ℕ) : smbiosAt mem address =
    if smbiosChecksum mem address then
      some ⟨if Spells mem smbiosSignatureL2 4 address then 3 else 2, address⟩
    else none := by
  rw [smbiosAt]
  by_cases hsum : smbiosChecksum mem address
  · by_cases h2 : Spells mem smbiosSignatureL2 4 address
    · have h3 : memcmp (bytesAt mem address) smbiosSignatureL3 5 ≠ 0 := fun h ↦
        not_signatureL3 h2 (memcmp_eq_zero_iff.mp h)
      rw [if_neg fun h ↦ h.1 (memcmp_eq_zero_iff.mpr h2), if_pos ⟨h3, hsum⟩, if_pos hsum,
        if_pos h2]
    · rw [if_pos ⟨fun h ↦ h2 (memcmp_eq_zero_iff.mp h), hsum⟩, if_pos hsum, if_neg h2]
  · rw [if_neg fun h ↦ hsum h.2, if_neg fun h ↦ hsum h.2, if_neg hsum]

theorem smbiosAt_eq_none_iff {address : ℕ} :
    smbiosAt mem address = none ↔ ¬ smbiosChecksum mem address := by
  rw [smbiosAt_eq]
  split_ifs with hsum <;> simp [hsum]

theorem info_of_smbiosAt {address : ℕ} {found : Smbios} (h : smbiosAt mem address = some found) :
    found.info = address := by
  rw [smbiosAt_eq, Option.ite_none_right_eq_some, Option.some.injEq] at h
  rw [← h.2]

theorem info_of_entryPoint {address : ℕ} {found : Smbios}
    (h : entryPoint mem address = some found) : found.info = address := by
  rw [entryPoint] at h
  split_ifs at h
  · rw [← Option.some.inj h]
  · rw [← Option.some.inj h]

/-- What is found at a place is never what is there. -/
theorem entryPoint_ne_smbiosAt {address : ℕ} {found : Smbios}
    (h : smbiosAt mem address = some found) : entryPoint mem address ≠ some found := by
  rw [smbiosAt_eq, Option.ite_none_right_eq_some] at h
  rw [← h.2, entryPoint]
  by_cases hsig : Spells mem smbiosSignatureL2 4 address
  · rw [if_pos hsig, if_neg fun h3 : IsEntryPoint mem smbiosSignatureL3 5 6 address ↦
      not_signatureL3 hsig h3.1]
    split_ifs <;> simp
  · rw [if_neg hsig, if_neg fun h2 : IsEntryPoint mem smbiosSignatureL2 4 5 address ↦ hsig h2.1]
    split_ifs <;> simp

/-- **Nothing is found that is there.** -/
theorem smbiosInitialize_ne {found : Smbios} (h : smbiosInitialize mem = some found) :
    lowestEntryPoint mem ≠ some found := by
  intro hlow
  rw [smbiosInitialize_eq] at h
  obtain ⟨j, -, hj⟩ := List.exists_of_findSome?_eq_some h
  obtain ⟨k, -, hk⟩ := List.exists_of_findSome?_eq_some hlow
  rw [← info_of_entryPoint hk, info_of_smbiosAt hj] at hk
  exact entryPoint_ne_smbiosAt hj hk

/-- **When the search finds what it should**: nothing is found, and there is nothing. -/
theorem smbiosInitialize_finds_iff (mem : ℕ → BitVec 8) :
    smbiosInitialize mem = lowestEntryPoint mem ↔ ∀ i, i < 4096 →
      ¬ smbiosChecksum mem (smbiosAddress i) ∧
        ¬ IsEntryPoint mem smbiosSignatureL3 5 6 (smbiosAddress i) := by
  have hfound : smbiosInitialize mem = none ↔
      ∀ i, i < 4096 → ¬ smbiosChecksum mem (smbiosAddress i) := by
    rw [smbiosInitialize_eq, List.findSome?_eq_none_iff]
    simp only [List.mem_range, smbiosAt_eq_none_iff]
  have hlow : lowestEntryPoint mem = none ↔ ∀ i, i < 4096 →
      ¬ IsEntryPoint mem smbiosSignatureL2 4 5 (smbiosAddress i) ∧
        ¬ IsEntryPoint mem smbiosSignatureL3 5 6 (smbiosAddress i) := by
    rw [lowestEntryPoint, List.findSome?_eq_none_iff]
    refine forall_congr' fun i ↦ ?_
    rw [List.mem_range, entryPoint]
    split_ifs <;> simp [*]
  constructor
  · intro h
    have hnone : smbiosInitialize mem = none := by
      by_contra hne
      obtain ⟨found, hsome⟩ := Option.ne_none_iff_exists'.mp hne
      exact smbiosInitialize_ne hsome (h.symm.trans hsome)
    exact fun i hi ↦ ⟨hfound.mp hnone i hi, (hlow.mp (h.symm.trans hnone) i hi).2⟩
  · intro h
    rw [hfound.mpr fun i hi ↦ (h i hi).1, eq_comm, hlow]
    refine fun i hi ↦ ⟨fun h2 ↦ (h i hi).1 ?_, (h i hi).2⟩
    rw [smbiosChecksum]
    exact decide_eq_true h2.2

/-- An entry point of version 2 at `0xF0000`. -/
def entryPointAtF0000 (a : ℕ) : BitVec 8 :=
  ([0x5F#8, 0x53#8, 0x4D#8, 0x5F#8, 0x83#8, 0x1F#8] : List (BitVec 8)).getD
    (a - smbiosAddress 0) 0#8

/-- **It is taken for one of version 3.** -/
theorem smbiosInitialize_finds_other :
    lowestEntryPoint entryPointAtF0000 = some ⟨2, 0xFFFFFF93000F0000⟩ ∧
    smbiosInitialize entryPointAtF0000 = some ⟨3, 0xFFFFFF93000F0000⟩ ∧
    smbiosInitialize entryPointAtF0000 ≠ lowestEntryPoint entryPointAtF0000 := by
  have hlow : lowestEntryPoint entryPointAtF0000 = some ⟨2, 0xFFFFFF93000F0000⟩ := by
    decide +kernel
  have hfound : smbiosInitialize entryPointAtF0000 = some ⟨3, 0xFFFFFF93000F0000⟩ := by
    decide +kernel
  refine ⟨hlow, hfound, ?_⟩
  rw [hlow, hfound]
  decide

end CubikOS

import CubikOS.Lib.Slots
import CubikOS.Mm.Page

/-!
# The memory map of the boot loader

`ParseStivale2Info` of `Kernel/arch/x86_64/bootx64.h`, which copies what the boot loader has found
out into the `boot_info` of `Kernel/include/boot/bootinfo.h`.

The boot loader passes a chain of tags.  The entries of every memory map among them go into one
table of 64, through an index that runs on from tag to tag and is compared with nothing.  Entries
that reach past the end of the address space are to be left out, but the sum that is compared with
the last address is taken modulo `2 ^ 64` itself, and never exceeds it.

* `parseStivale2Info_of_le` says what is recorded when the table is large enough, and
  `parseStivale2Info_of_lt` what happens when it is not.
* `parseStivale2Info_faithful_iff` says when the record is right.
-/

set_option autoImplicit false

namespace CubikOS

open Slots

/-! ## The data -/

/-- `MEMORY_MAP_LIMIT`. -/
abbrev memoryMapLimit : ℕ := 64

/-- `UINTPTR_MAX`. -/
abbrev uintptrMax : ℕ := 2 ^ 64 - 1

/-- `struct stivale2_mmap_entry`. -/
structure Stivale2MmapEntry where
  /-- The first address. -/
  base : ℕ
  /-- The number of bytes. -/
  length : ℕ
  /-- One of the `STIVALE2_MMAP` constants, 32 bits. -/
  type : ℕ
  /-- The base has 64 bits. -/
  base_lt : base < 2 ^ 64
  /-- The length has 64 bits. -/
  length_lt : length < 2 ^ 64

/-- What is read of a `struct stivale2_struct_tag_framebuffer`. -/
structure Stivale2Framebuffer where
  /-- `framebuffer_addr`, 64 bits. -/
  addr : ℕ
  /-- `framebuffer_width`, 16 bits. -/
  width : ℕ
  /-- `framebuffer_height`, 16 bits. -/
  height : ℕ
  /-- `framebuffer_pitch`, 16 bits. -/
  pitch : ℕ
  /-- `framebuffer_bpp`, 16 bits. -/
  bpp : ℕ

/-- `struct stivale2_tag`, and what is found behind it when it is taken for one of the tags that
are read. -/
structure Stivale2Tag where
  /-- `identifier`, 64 bits. -/
  identifier : ℕ
  /-- `memmap`, its length being `entries`. -/
  memmap : List Stivale2MmapEntry
  /-- The members of a frame buffer tag. -/
  framebuffer : Stivale2Framebuffer

/-- `STIVALE2_STRUCT_TAG_MEMMAP_ID`. -/
abbrev stivale2StructTagMemmapId : ℕ := 0x2187f79e8612de07

/-- `STIVALE2_STRUCT_TAG_FRAMEBUFFER_ID`. -/
abbrev stivale2StructTagFramebufferId : ℕ := 0x506461d2950408fa

/-- `enum memory_map_entry_type`. -/
inductive MemoryMapEntryType where
  | available
  | reserved
  | acpiReclaimable
  | nvs
  | badRam
  | kernel
deriving DecidableEq

/-- `struct memory_map_entry`. -/
structure MemoryMapEntry where
  /-- The addresses. -/
  range : Range
  /-- What they are. -/
  type : MemoryMapEntryType

/-- `struct boot_mem`. -/
structure BootMem where
  /-- `total_size`, 64 bits. -/
  totalSize : ℕ
  /-- `usable`, 64 bits. -/
  usable : ℕ
  /-- `map_size`. -/
  mapSize : ℕ
  /-- `entries`, of which there are `MEMORY_MAP_LIMIT`. -/
  entries : ℕ → MemoryMapEntry

/-- `struct boot_graphic`. -/
structure BootGraphic where
  /-- `width`. -/
  width : ℕ
  /-- `height`. -/
  height : ℕ
  /-- `buffer_address`. -/
  bufferAddress : ℕ
  /-- `pitch`. -/
  pitch : ℕ
  /-- `bytes_per_pixel`. -/
  bytesPerPixel : ℕ

/-- `struct boot_info`, without the name of the boot loader, which is never written. -/
structure BootInfo where
  /-- `check`. -/
  check : ℕ
  /-- `mem`. -/
  mem : BootMem
  /-- `graphic`. -/
  graphic : BootGraphic

/-- A `boot_info` of zeros. -/
def BootInfo.zeroed : BootInfo where
  check := 0
  mem := ⟨0, 0, 0, fun _ ↦ ⟨⟨0, 0⟩, .available⟩⟩
  graphic := ⟨0, 0, 0, 0, 0⟩

/-! ## The functions -/

/-- The type an entry is recorded with. -/
def Stivale2MmapEntry.entryType (e : Stivale2MmapEntry) : MemoryMapEntryType :=
  match e.type with
  | 1 => .available
  | 0x1001 => .kernel
  | 3 => .acpiReclaimable
  | 4 => .nvs
  | 5 => .badRam
  | _ => .reserved

/-- What is recorded of an entry. -/
def Stivale2MmapEntry.record (e : Stivale2MmapEntry) : MemoryMapEntry where
  range := ⟨e.base, (e.base + e.length) % 2 ^ 64⟩
  type := e.entryType

/-- One round of the loop over the entries of a memory map. -/
def parseMmapEntry (mem : BootMem) (e : Stivale2MmapEntry) : Except Fault BootMem :=
  if e.base > uintptrMax ∨ (e.base + e.length) % 2 ^ 64 > uintptrMax then .ok mem
  else if mem.mapSize < memoryMapLimit then .ok {
    totalSize := (mem.totalSize + e.length) % 2 ^ 64
    usable := if e.entryType = .available then (mem.usable + e.length) % 2 ^ 64 else mem.usable
    mapSize := mem.mapSize + 1
    entries := Function.update mem.entries mem.mapSize e.record }
  else .error .outOfBounds

/-- The loop over the entries of a memory map. -/
def parseMemmap : BootMem → List Stivale2MmapEntry → Except Fault BootMem
  | mem, [] => .ok mem
  | mem, e :: es =>
    match parseMmapEntry mem e with
    | .error f => .error f
    | .ok mem => parseMemmap mem es

/-- What is done with one tag. -/
def parseTag (info : BootInfo) (tag : Stivale2Tag) : Except Fault BootInfo :=
  if tag.identifier = stivale2StructTagMemmapId then
    match parseMemmap info.mem tag.memmap with
    | .error f => .error f
    | .ok mem => .ok { info with mem := mem }
  else if tag.identifier = stivale2StructTagFramebufferId then
    .ok { info with
      graphic := ⟨tag.framebuffer.width, tag.framebuffer.height, tag.framebuffer.addr,
        tag.framebuffer.pitch, tag.framebuffer.bpp⟩ }
  else .ok info

/-- `ParseStivale2Info(boot_info, st_info)`, `st_info` being the chain of tags. -/
def parseStivale2Info (info : BootInfo) : List Stivale2Tag → Except Fault BootInfo
  | [] => .ok { info with check := 0xDEADC0DE }
  | tag :: tags =>
    match parseTag info tag with
    | .error f => .error f
    | .ok info => parseStivale2Info info tags

/-! ## What is recorded -/

/-- The entries of all memory maps of the chain, in order. -/
def mmapEntries (tags : List Stivale2Tag) : List Stivale2MmapEntry :=
  tags.flatMap fun tag ↦ if tag.identifier = stivale2StructTagMemmapId then tag.memmap else []

/-- The number of bytes of a list of entries. -/
def mmapLength (es : List Stivale2MmapEntry) : ℕ := (es.map Stivale2MmapEntry.length).sum

/-- Those of a list of entries that are recorded with a type. -/
def ofType (type : MemoryMapEntryType) (es : List Stivale2MmapEntry) : List Stivale2MmapEntry :=
  es.filter fun e ↦ e.entryType = type

/-- The table once the entries have been added to it. -/
def BootMem.add (mem : BootMem) (es : List Stivale2MmapEntry) : BootMem where
  totalSize := (mem.totalSize + mmapLength es) % 2 ^ 64
  usable := (mem.usable + mmapLength (ofType .available es)) % 2 ^ 64
  mapSize := mem.mapSize + es.length
  entries := fill mem.entries mem.mapSize (es.map Stivale2MmapEntry.record)

section Recorded

variable {mem : BootMem} {info : BootInfo} {e : Stivale2MmapEntry} {es : List Stivale2MmapEntry}
  {tags : List Stivale2Tag}

/-- No entry is left out. -/
theorem not_skipped (e : Stivale2MmapEntry) :
    ¬ (e.base > uintptrMax ∨ (e.base + e.length) % 2 ^ 64 > uintptrMax) := by
  have := e.base_lt
  dsimp only [uintptrMax]
  omega

theorem parseMmapEntry_of_lt (hlt : mem.mapSize < memoryMapLimit) (husable : mem.usable < 2 ^ 64) :
    parseMmapEntry mem e = .ok (mem.add [e]) := by
  rw [parseMmapEntry, if_neg (not_skipped e), if_pos hlt, BootMem.add, mmapLength, ofType]
  by_cases htype : e.entryType = .available
  · simp [htype, mmapLength, fill]
  · simp only [htype, if_false, mmapLength, List.map_cons, List.map_nil, List.sum_cons,
      List.sum_nil, Nat.add_zero, List.filter_cons, decide_false, Bool.false_eq_true,
      List.filter_nil, Nat.mod_eq_of_lt husable, fill, List.length_singleton]

theorem parseMmapEntry_of_le (hle : memoryMapLimit ≤ mem.mapSize) :
    parseMmapEntry mem e = .error .outOfBounds := by
  rw [parseMmapEntry, if_neg (not_skipped e), if_neg (Nat.not_lt.mpr hle)]

theorem BootMem.add_nil (htotal : mem.totalSize < 2 ^ 64) (husable : mem.usable < 2 ^ 64) :
    mem.add [] = mem := by
  rw [BootMem.add, ofType, List.filter_nil, mmapLength, List.map_nil, List.sum_nil, Nat.add_zero,
    Nat.add_zero, Nat.mod_eq_of_lt htotal, Nat.mod_eq_of_lt husable]
  rfl

theorem BootMem.add_append (es es' : List Stivale2MmapEntry) :
    mem.add (es ++ es') = (mem.add es).add es' := by
  simp only [BootMem.add, ofType, List.filter_append, mmapLength, List.map_append, List.sum_append,
    List.length_append, fill_append, List.length_map, Nat.add_assoc, Nat.mod_add_mod]

theorem BootMem.add_totalSize_lt : (mem.add es).totalSize < 2 ^ 64 := Nat.mod_lt _ (by decide)

theorem BootMem.add_usable_lt : (mem.add es).usable < 2 ^ 64 := Nat.mod_lt _ (by decide)

/-- **The entries of a memory map are added**, if there is room for them. -/
theorem parseMemmap_of_le (hle : mem.mapSize + es.length ≤ memoryMapLimit)
    (htotal : mem.totalSize < 2 ^ 64) (husable : mem.usable < 2 ^ 64) :
    parseMemmap mem es = .ok (mem.add es) := by
  induction es generalizing mem with
  | nil => rw [parseMemmap, BootMem.add_nil htotal husable]
  | cons e es ih =>
    rw [List.length_cons] at hle
    have hstep : (mem.add [e]).mapSize = mem.mapSize + 1 := rfl
    rw [parseMemmap, parseMmapEntry_of_lt (by omega) husable]
    simp only
    rw [ih (by omega) BootMem.add_totalSize_lt BootMem.add_usable_lt, ← BootMem.add_append,
      List.singleton_append]

/-- Without room for all of them, one is written behind the table. -/
theorem parseMemmap_of_lt (hle : mem.mapSize ≤ memoryMapLimit)
    (hlt : memoryMapLimit < mem.mapSize + es.length) (husable : mem.usable < 2 ^ 64) :
    parseMemmap mem es = .error .outOfBounds := by
  induction es generalizing mem with
  | nil => rw [List.length_nil] at hlt; omega
  | cons e es ih =>
    rw [List.length_cons] at hlt
    rcases Nat.lt_or_ge mem.mapSize memoryMapLimit with hroom | hfull
    · have hstep : (mem.add [e]).mapSize = mem.mapSize + 1 := rfl
      rw [parseMemmap, parseMmapEntry_of_lt hroom husable]
      exact ih (by omega) (by omega) BootMem.add_usable_lt
    · rw [parseMemmap, parseMmapEntry_of_le hfull]

theorem mmapEntries_cons (tag : Stivale2Tag) (tags : List Stivale2Tag) :
    mmapEntries (tag :: tags) =
      (if tag.identifier = stivale2StructTagMemmapId then tag.memmap else []) ++ mmapEntries tags :=
  rfl

/-- **One tag**: its entries are added, if there is room for them. -/
theorem parseTag_mem (tag : Stivale2Tag)
    (hle : info.mem.mapSize + (mmapEntries [tag]).length ≤ memoryMapLimit)
    (htotal : info.mem.totalSize < 2 ^ 64) (husable : info.mem.usable < 2 ^ 64) :
    ∃ info', parseTag info tag = .ok info' ∧ info'.mem = info.mem.add (mmapEntries [tag]) := by
  have hnil := BootMem.add_nil htotal husable
  rw [mmapEntries_cons] at hle ⊢
  rw [parseTag]
  split at hle
  · rename_i hid
    rw [show mmapEntries [] = [] from rfl, List.append_nil] at hle ⊢
    rw [if_pos hid, if_pos hid, parseMemmap_of_le hle htotal husable]
    exact ⟨_, rfl, rfl⟩
  · rename_i hid
    rw [if_neg hid, if_neg hid, show [] ++ mmapEntries [] = [] from rfl, hnil]
    split
    · exact ⟨_, rfl, rfl⟩
    · exact ⟨_, rfl, rfl⟩

theorem mmapEntries_cons_eq (tag : Stivale2Tag) (tags : List Stivale2Tag) :
    mmapEntries (tag :: tags) = mmapEntries [tag] ++ mmapEntries tags := by
  rw [mmapEntries_cons, mmapEntries_cons, show mmapEntries [] = [] from rfl, List.append_nil]

/-- **What is recorded**: the entries of all memory maps, if there is room for them. -/
theorem parseStivale2Info_of_le
    (hle : info.mem.mapSize + (mmapEntries tags).length ≤ memoryMapLimit)
    (htotal : info.mem.totalSize < 2 ^ 64) (husable : info.mem.usable < 2 ^ 64) :
    ∃ info', parseStivale2Info info tags = .ok info' ∧
      info'.mem = info.mem.add (mmapEntries tags) := by
  induction tags generalizing info with
  | nil => exact ⟨_, rfl, (BootMem.add_nil htotal husable).symm⟩
  | cons tag tags ih =>
    rw [mmapEntries_cons_eq, List.length_append] at hle
    obtain ⟨info₁, htag, hmem⟩ := parseTag_mem tag (by omega) htotal husable
    have hsize : info₁.mem.mapSize = info.mem.mapSize + (mmapEntries [tag]).length := by
      rw [hmem]
      rfl
    obtain ⟨info₂, hrest, hmem₂⟩ := ih (by omega : info₁.mem.mapSize + _ ≤ _)
      (by rw [hmem]; exact BootMem.add_totalSize_lt) (by rw [hmem]; exact BootMem.add_usable_lt)
    refine ⟨info₂, ?_, ?_⟩
    · rw [parseStivale2Info, htag]
      exact hrest
    · rw [hmem₂, hmem, mmapEntries_cons_eq tag tags, BootMem.add_append]

/-- **Without room for all entries**, the table is left. -/
theorem parseStivale2Info_of_lt (hle : info.mem.mapSize ≤ memoryMapLimit)
    (hlt : memoryMapLimit < info.mem.mapSize + (mmapEntries tags).length)
    (htotal : info.mem.totalSize < 2 ^ 64) (husable : info.mem.usable < 2 ^ 64) :
    parseStivale2Info info tags = .error .outOfBounds := by
  induction tags generalizing info with
  | nil =>
    rw [show mmapEntries [] = [] from rfl, List.length_nil] at hlt
    omega
  | cons tag tags ih =>
    rw [mmapEntries_cons_eq, List.length_append] at hlt
    rcases Nat.lt_or_ge memoryMapLimit (info.mem.mapSize + (mmapEntries [tag]).length) with
      hover | hroom
    · have hid : tag.identifier = stivale2StructTagMemmapId := by
        by_contra hid
        rw [mmapEntries_cons, if_neg hid, show [] ++ mmapEntries [] = [] from rfl,
          List.length_nil] at hover
        omega
      rw [mmapEntries_cons, if_pos hid, show mmapEntries [] = [] from rfl,
        List.append_nil] at hover
      rw [parseStivale2Info, parseTag, if_pos hid, parseMemmap_of_lt hle hover husable]
    · obtain ⟨info₁, htag, hmem⟩ := parseTag_mem tag hroom htotal husable
      have hsize : info₁.mem.mapSize = info.mem.mapSize + (mmapEntries [tag]).length := by
        rw [hmem]; rfl
      rw [parseStivale2Info, htag]
      exact ih (by omega) (by omega) (by rw [hmem]; exact BootMem.add_totalSize_lt)
        (by rw [hmem]; exact BootMem.add_usable_lt)

/-- **What is recorded in a `boot_info` of zeros.** -/
theorem parseStivale2Info_zeroed (hle : (mmapEntries tags).length ≤ memoryMapLimit) :
    ∃ info, parseStivale2Info .zeroed tags = .ok info ∧
      info.mem = BootInfo.zeroed.mem.add (mmapEntries tags) := by
  have hroom : BootInfo.zeroed.mem.mapSize + (mmapEntries tags).length ≤ memoryMapLimit := by
    rwa [show BootInfo.zeroed.mem.mapSize = 0 from rfl, Nat.zero_add]
  exact parseStivale2Info_of_le hroom (by decide) (by decide)

theorem parseStivale2Info_zeroed_of_lt (hlt : memoryMapLimit < (mmapEntries tags).length) :
    parseStivale2Info .zeroed tags = .error .outOfBounds := by
  have hover : memoryMapLimit < BootInfo.zeroed.mem.mapSize + (mmapEntries tags).length := by
    rwa [show BootInfo.zeroed.mem.mapSize = 0 from rfl, Nat.zero_add]
  exact parseStivale2Info_of_lt (Nat.zero_le _) hover (by decide) (by decide)

end Recorded

/-! ## When the record is right -/

/-- The entry ends within the address space. -/
def Stivale2MmapEntry.Fits (e : Stivale2MmapEntry) : Prop := e.base + e.length ≤ uintptrMax

instance (e : Stivale2MmapEntry) : Decidable e.Fits := inferInstanceAs (Decidable (_ ≤ _))

/-- What is expected of the record of a chain: the entries that end within the address space, as
many of them as there is room for. -/
structure BootMem.Faithful (mem : BootMem) (tags : List Stivale2Tag) : Prop where
  /-- The ranges are those of the first entries that fit, in order. -/
  ranges : (List.range mem.mapSize).map (fun i ↦ (mem.entries i).range) =
    (((mmapEntries tags).filter fun e ↦ e.Fits).take memoryMapLimit).map
      fun e ↦ ⟨e.base, e.base + e.length⟩
  /-- No range ends before it begins. -/
  ordered : ∀ i, i < mem.mapSize → (mem.entries i).range.start ≤ (mem.entries i).range.stop

section Faithful

variable {tags : List Stivale2Tag}

/-- What the table holds when all entries have been added to an empty one. -/
theorem map_add_zeroed (es : List Stivale2MmapEntry) :
    (List.range (BootInfo.zeroed.mem.add es).mapSize).map (BootInfo.zeroed.mem.add es).entries =
      es.map Stivale2MmapEntry.record := by
  have hsize : (BootInfo.zeroed.mem.add es).mapSize =
      (es.map Stivale2MmapEntry.record).length := by
    rw [List.length_map]
    exact Nat.zero_add _
  rw [hsize, List.range_eq_range']
  exact map_fill

/-- **When the memory map is recorded faithfully**: there are not more than 64 entries, and all of
them end within the address space. -/
theorem parseStivale2Info_faithful_iff (tags : List Stivale2Tag) :
    (∃ info, parseStivale2Info .zeroed tags = .ok info ∧ info.mem.Faithful tags) ↔
      (mmapEntries tags).length ≤ memoryMapLimit ∧ ∀ e ∈ mmapEntries tags, e.Fits := by
  constructor
  · rintro ⟨info, hrun, hfaithful⟩
    rcases Nat.lt_or_ge memoryMapLimit (mmapEntries tags).length with hlt | hle
    · rw [parseStivale2Info_zeroed_of_lt hlt] at hrun
      simp at hrun
    · obtain ⟨info', hrun', hmem⟩ := parseStivale2Info_zeroed hle
      rw [hrun', Except.ok.injEq] at hrun
      subst hrun
      refine ⟨hle, ?_⟩
      -- as many entries are recorded as there are, so none of them was expected to be left out
      have hlength := congrArg List.length hfaithful.ranges
      rw [List.length_map, List.length_range, List.length_map, List.length_take, hmem,
        show (BootInfo.zeroed.mem.add (mmapEntries tags)).mapSize = (mmapEntries tags).length from
          Nat.zero_add _] at hlength
      have hall : ((mmapEntries tags).filter fun e ↦ e.Fits).length = (mmapEntries tags).length :=
        le_antisymm (List.length_filter_le _ _) (by omega)
      intro e he
      exact of_decide_eq_true (List.length_filter_eq_length_iff.mp hall e he)
  · rintro ⟨hle, hfits⟩
    obtain ⟨info, hrun, hmem⟩ := parseStivale2Info_zeroed hle
    have hfilter : (mmapEntries tags).filter (fun e ↦ e.Fits) = mmapEntries tags :=
      List.filter_eq_self.mpr fun e he ↦ decide_eq_true (hfits e he)
    have hrange : ∀ e ∈ mmapEntries tags, e.record.range = ⟨e.base, e.base + e.length⟩ := by
      intro e he
      have := hfits e he
      rw [Stivale2MmapEntry.Fits] at this
      rw [Stivale2MmapEntry.record, Nat.mod_eq_of_lt (by dsimp only [uintptrMax] at this; omega)]
    have hentries := map_add_zeroed (mmapEntries tags)
    rw [← hmem] at hentries
    refine ⟨info, hrun, ⟨?_, fun i hi ↦ ?_⟩⟩
    · rw [hfilter, List.take_of_length_le hle, ← List.map_congr_left hrange,
        ← Function.comp_def MemoryMapEntry.range, ← Function.comp_def MemoryMapEntry.range,
        ← List.map_map, ← List.map_map, hentries]
    · have hmember : info.mem.entries i ∈ (mmapEntries tags).map Stivale2MmapEntry.record := by
        rw [← hentries]
        exact List.mem_map_of_mem (List.mem_range.mpr hi)
      obtain ⟨e, he, heq⟩ := List.mem_map.mp hmember
      rw [← heq, hrange e he]
      exact Nat.le_add_right _ _

end Faithful

/-- A memory map of one entry, which reaches 4 KiB past the end of the address space. -/
def wrappingTag : Stivale2Tag where
  identifier := stivale2StructTagMemmapId
  memmap := [⟨0xFFFFFFFFFFFFF000, 0x2000, 1, by decide, by decide⟩]
  framebuffer := ⟨0, 0, 0, 0, 0⟩

/-- **A range that ends before it begins**: the entry is recorded, as the addresses from the last
4 KiB to the first. -/
theorem parseStivale2Info_wraps : ∃ info, parseStivale2Info .zeroed [wrappingTag] = .ok info ∧
    info.mem.mapSize = 1 ∧ (info.mem.entries 0).range.start = 0xFFFFFFFFFFFFF000 ∧
    (info.mem.entries 0).range.stop = 0x1000 ∧ ¬ info.mem.Faithful [wrappingTag] := by
  refine ⟨_, rfl, rfl, rfl, rfl, fun h ↦ ?_⟩
  exact absurd (h.ordered 0 (by decide)) (by decide)

end CubikOS

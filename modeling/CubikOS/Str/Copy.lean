import CubikOS.Lib.CString

/-!
# Copying strings

`strlen`, `strncpy` and `strncat` of `Kernel/src/string.c`.

`strncpy` copies no more than `n` characters, and then writes a 0: if there are `n` characters or
more it writes `n + 1` bytes.  This is what `strncat` needs, which appends `n` characters at most
and then a 0, but it is one byte too many for a buffer of `n` bytes.

The characters are read and written one after the other.  Nothing goes wrong if the two places
overlap, unless the copy runs into the characters that are yet to be read: then the 0 at the end of
these has been written over before it is seen, and the copy goes on for as long as it may.

* `strncpyLoop_spec` says what is copied, and which bytes are written in which order.
* `strncpyLoop_runs_on` is about the copy that runs into what it reads.
* `bounded_copies_iff` says when the two functions write what they should.
-/

set_option autoImplicit false

namespace CubikOS.Str

open CString

/-! ## The functions -/

/-- A memory, and the addresses of the bytes that have been written so far. -/
structure Store where
  /-- The bytes. -/
  mem : ℕ → BitVec 8
  /-- The addresses, the latest one last. -/
  written : List ℕ

/-- `*a = c`. -/
def Store.write (st : Store) (a : ℕ) (c : BitVec 8) : Store :=
  ⟨Function.update st.mem a c, st.written ++ [a]⟩

theorem Store.write_mem_self (st : Store) (a : ℕ) (c : BitVec 8) : (st.write a c).mem a = c := by
  simp only [Store.write, Function.update_self]

theorem Store.write_mem_of_ne (st : Store) {a b : ℕ} (h : b ≠ a) (c : BitVec 8) :
    (st.write a c).mem b = st.mem b := by
  simp only [Store.write, Function.update_of_ne h]

/-- The loop of `strlen`, from character `i` on. -/
def strlenLoop (mem : ℕ → BitVec 8) (str : ℕ) : ℕ → ℕ → Option ℕ
  | 0, _ => none
  | fuel + 1, i =>
    if mem ((str + i) % 2 ^ 64) ≠ 0#8 then strlenLoop mem str fuel (i + 1) else some i

/-- `strlen(str)`. -/
def strlen (mem : ℕ → BitVec 8) (str : ℕ) : Option ℕ := strlenLoop mem str (2 ^ 64) 0

/-- The loop of `strncpy`, and the 0 that is written after it. -/
def strncpyLoop : ℕ → ℕ → ℕ → Store → Store
  | 0, dest, _, st => st.write dest 0#8
  | n + 1, dest, src, st =>
    if st.mem src ≠ 0#8 then
      strncpyLoop n (next dest) (next src) (st.write dest (st.mem src))
    else st.write dest 0#8

/-- `strncpy(dest, src, n)`. -/
def strncpy (mem : ℕ → BitVec 8) (dest src n : ℕ) : Store := strncpyLoop n dest src ⟨mem, []⟩

/-- `strncat(dest, src, n)`. -/
def strncat (mem : ℕ → BitVec 8) (dest src n : ℕ) : Option Store :=
  match strlen mem dest with
  | none => none
  | some i => some (strncpy mem ((dest + i) % 2 ^ 64) src n)

/-! ## What is expected -/

/-- The first `k` addresses from `p` on. -/
def places (p k : ℕ) : List ℕ := (List.range k).map fun i ↦ (p + i) % 2 ^ 64

/-- `strncpy` writes no byte but the first `n` from `dest` on. -/
def StrncpyInBounds (mem : ℕ → BitVec 8) (dest src n : ℕ) : Prop :=
  ∀ a ∈ (strncpy mem dest src n).written, a ∈ places dest n

/-- `strncat` appends the first `n` characters of the string `l` at `src` to the string `o` at
`dest`, and writes no byte but these and a 0. -/
def StrncatAppends (mem : ℕ → BitVec 8) (dest : ℕ) (o : List (BitVec 8)) (src : ℕ)
    (l : List (BitVec 8)) (n : ℕ) : Prop :=
  ∃ st, strncat mem dest src n = some st ∧ IsString st.mem dest (o ++ l.take n) ∧
    st.written = places ((dest + o.length) % 2 ^ 64) (min n l.length + 1) ∧
    ∀ a, a ∉ st.written → st.mem a = mem a

theorem places_succ {p : ℕ} (hp : p < 2 ^ 64) (k : ℕ) :
    places p (k + 1) = p :: places (next p) k := by
  rw [places, places, List.range_succ_eq_map, List.map_cons, List.map_map, Nat.add_zero,
    Nat.mod_eq_of_lt hp]
  refine congrArg (List.cons p) (List.map_congr_left fun i _ ↦ ?_)
  rw [Function.comp_apply, next_add_mod]

theorem mem_places {p k a : ℕ} : a ∈ places p k ↔ ∃ i, i < k ∧ (p + i) % 2 ^ 64 = a := by
  simp [places]

/-- There are no more than `2 ^ 64` addresses. -/
theorem notMem_places {p i k : ℕ} (hik : k ≤ i) (hi : i < 2 ^ 64) :
    (p + i) % 2 ^ 64 ∉ places p k := by
  rw [mem_places]
  rintro ⟨j, hj, heq⟩
  omega

theorem length_places (p k : ℕ) : (places p k).length = k := by
  rw [places, List.length_map, List.length_range]

/-! ## The copy -/

/-- A loop that may look at `n` characters finds those of the string `l` at `p`. -/
def Reads (mem : ℕ → BitVec 8) : ℕ → ℕ → List (BitVec 8) → Prop
  | 0, _, _ => True
  | _ + 1, p, [] => mem p = 0#8
  | n + 1, p, c :: l => mem p = c ∧ c ≠ 0#8 ∧ Reads mem n (next p) l

variable {mem mem' : ℕ → BitVec 8} {p dest src n : ℕ} {l o : List (BitVec 8)}

theorem IsString.reads (h : IsString mem p l) (n : ℕ) : Reads mem n p l := by
  induction n generalizing p l with
  | zero => trivial
  | succ n ih =>
    cases l with
    | nil => exact h
    | cons c l => exact ⟨h.1, h.2.1, ih h.2.2⟩

theorem Reads.congr (hp : p < 2 ^ 64) (h : Reads mem n p l)
    (hmem : ∀ i, i < n → i ≤ l.length → mem' ((p + i) % 2 ^ 64) = mem ((p + i) % 2 ^ 64)) :
    Reads mem' n p l := by
  induction n generalizing p l with
  | zero => trivial
  | succ n ih =>
    have h0 := hmem 0 (Nat.succ_pos n) (Nat.zero_le _)
    rw [Nat.add_zero, Nat.mod_eq_of_lt hp] at h0
    cases l with
    | nil => exact h0.trans h
    | cons c l =>
      refine ⟨h0.trans h.1, h.2.1, ih (next_lt p) h.2.2 fun i hi hle ↦ ?_⟩
      rw [next_add_mod]
      exact hmem (i + 1) (Nat.succ_lt_succ hi) (Nat.succ_le_succ hle)

/-- The 0 alone. -/
theorem write_zero_spec (st : Store) (hdest : dest < 2 ^ 64) :
    (st.write dest 0#8).written = st.written ++ places dest 1 ∧
      IsString (st.write dest 0#8).mem dest [] ∧
      ∀ a, a ∉ places dest 1 → (st.write dest 0#8).mem a = st.mem a := by
  rw [places_succ hdest]
  refine ⟨rfl, st.write_mem_self dest _, fun a ha ↦ st.write_mem_of_ne ?_ _⟩
  exact fun h ↦ ha (by simp [h])

/-- **What is copied**, if the copy does not run into what is yet to be read: the first `n`
characters, one after the other, and a 0. -/
theorem strncpyLoop_spec {st : Store} (hdest : dest < 2 ^ 64) (hsrc : src < 2 ^ 64)
    (hn : n < 2 ^ 64) (hl : Reads st.mem n src l)
    (hapart : ∀ i, 0 < i → i < n → i ≤ l.length → dest ≠ (src + i) % 2 ^ 64) :
    (strncpyLoop n dest src st).written = st.written ++ places dest (min n l.length + 1) ∧
      IsString (strncpyLoop n dest src st).mem dest (l.take n) ∧
      ∀ a, a ∉ places dest (min n l.length + 1) →
        (strncpyLoop n dest src st).mem a = st.mem a := by
  induction n generalizing dest src l st with
  | zero =>
    rw [Nat.zero_min, List.take_zero, strncpyLoop]
    exact write_zero_spec st hdest
  | succ n ih =>
    cases l with
    | nil =>
      have h0 : st.mem src = 0#8 := hl
      rw [strncpyLoop, if_neg (not_not.mpr h0), List.length_nil, Nat.min_zero, List.take_nil]
      exact write_zero_spec st hdest
    | cons c l =>
      obtain ⟨hc, hne, hrest⟩ := hl
      have hrest' : Reads (st.write dest c).mem n (next src) l := by
        refine hrest.congr (next_lt src) fun i hi hle ↦ st.write_mem_of_ne ?_ c
        rw [next_add_mod]
        exact (hapart (i + 1) (Nat.succ_pos i) (Nat.succ_lt_succ hi) (Nat.succ_le_succ hle)).symm
      have hapart' : ∀ i, 0 < i → i < n → i ≤ l.length → next dest ≠ (next src + i) % 2 ^ 64 := by
        intro i hi hlt hle heq
        refine hapart i hi (by omega) (by rw [List.length_cons]; omega) ?_
        rw [next_add_mod, next] at heq
        omega
      obtain ⟨hwritten, hstring, hframe⟩ := ih (next_lt dest) (next_lt src) (by omega) hrest'
        hapart'
      have hself : dest ∉ places (next dest) (min n l.length + 1) := by
        rw [mem_places]
        rintro ⟨i, hi, heq⟩
        rw [next_add_mod] at heq
        omega
      rw [strncpyLoop, hc, if_pos hne, List.length_cons, Nat.add_min_add_right,
        places_succ hdest, List.take_succ_cons]
      refine ⟨?_, ⟨?_, hne, hstring⟩, fun a ha ↦ ?_⟩
      · rw [hwritten, Store.write, List.append_assoc]
        rfl
      · rw [hframe dest hself, st.write_mem_self]
      · obtain ⟨hfirst, hothers⟩ := not_or.mp fun h ↦ ha (List.mem_cons.mpr h)
        rw [hframe a hothers, st.write_mem_of_ne hfirst]

/-- **A copy that runs into what it reads** goes on for as long as it may. -/
theorem strncpyLoop_runs_on {st : Store} {ahead : ℕ} (hsrc : src < 2 ^ 64) (hpos : 0 < ahead)
    (hlt : ahead < 2 ^ 64) (hdest : dest = (src + ahead) % 2 ^ 64)
    (hne : ∀ i, i < ahead → st.mem ((src + i) % 2 ^ 64) ≠ 0#8) :
    (strncpyLoop n dest src st).written = st.written ++ places dest (n + 1) := by
  have hdest' : dest < 2 ^ 64 := hdest ▸ Nat.mod_lt _ (by decide)
  induction n generalizing dest src st with
  | zero =>
    rw [places_succ hdest']
    rfl
  | succ n ih =>
    have h0 := hne 0 hpos
    rw [Nat.add_zero, Nat.mod_eq_of_lt hsrc] at h0
    rw [strncpyLoop, if_pos h0, ih (next_lt src) (by rw [hdest, next_mod, next_add_mod]),
      places_succ hdest', Store.write, List.append_assoc]
    · rfl
    · intro i hi
      rw [next_add_mod]
      rcases Nat.lt_or_ge (i + 1) ahead with hi' | hi'
      · rw [st.write_mem_of_ne (by omega)]
        exact hne (i + 1) hi'
      · -- the character that has just been written
        obtain rfl : ahead = i + 1 := by omega
        rw [← hdest, st.write_mem_self]
        exact h0
    · exact next_lt dest

/-! ## Keeping to the bounds -/

/-- The copy runs into what it reads. -/
theorem strncpy_written_of_mem (hsrc : src < 2 ^ 64) (hl : IsString mem src l) {i : ℕ}
    (hi : 0 < i) (hle : i ≤ l.length) (hdest : dest = (src + i) % 2 ^ 64) :
    (strncpy mem dest src n).written = places dest (n + 1) := by
  have hlen := hl.length_lt hsrc
  refine strncpyLoop_runs_on hsrc hi (by omega) hdest fun j hj ↦ ?_
  dsimp only
  rw [hl.get hsrc (by omega)]
  exact hl.ne_zero _ (List.getElem_mem _)

/-- **When `strncpy` writes no more than `n` bytes**: there are fewer characters. -/
theorem strncpy_inBounds_iff (hdest : dest < 2 ^ 64) (hn : n < 2 ^ 64) (hl : IsString mem src l)
    (hfit : src + l.length < 2 ^ 64) :
    StrncpyInBounds mem dest src n ↔
      l.length < n ∧ (dest ≤ src ∨ src + l.length < dest) := by
  have hsrc : src < 2 ^ 64 := by omega
  -- one byte too many
  have hover : (strncpy mem dest src n).written = places dest (n + 1) →
      ¬ StrncpyInBounds mem dest src n := by
    intro hwritten h
    have := h ((dest + n) % 2 ^ 64) (hwritten ▸ mem_places.mpr ⟨n, Nat.lt_succ_self n, rfl⟩)
    exact notMem_places le_rfl hn this
  by_cases hbad : ∃ i, 0 < i ∧ i ≤ l.length ∧ dest = (src + i) % 2 ^ 64
  · obtain ⟨i, hi, hle, heq⟩ := hbad
    refine iff_of_false (hover (strncpy_written_of_mem hsrc hl hi hle heq)) ?_
    rw [Nat.mod_eq_of_lt (by omega)] at heq
    omega
  · have hapart : ∀ i, 0 < i → i < n → i ≤ l.length → dest ≠ (src + i) % 2 ^ 64 :=
      fun i hi _ hle heq ↦ hbad ⟨i, hi, hle, heq⟩
    obtain ⟨hwritten, -⟩ := @strncpyLoop_spec dest src n l ⟨mem, []⟩ hdest hsrc hn
      (IsString.reads hl n) hapart
    have haway : dest ≤ src ∨ src + l.length < dest := by
      by_contra h
      refine hbad ⟨dest - src, by omega, by omega, ?_⟩
      rw [Nat.mod_eq_of_lt (by omega)]
      omega
    rw [and_iff_left haway]
    constructor
    · intro h
      by_contra hge
      rw [Nat.min_eq_left (Nat.le_of_not_lt hge)] at hwritten
      exact hover hwritten h
    · intro hlt a ha
      rw [strncpy, hwritten, List.nil_append, Nat.min_eq_right hlt.le, mem_places] at ha
      obtain ⟨i, hi, rfl⟩ := ha
      exact mem_places.mpr ⟨i, by omega, rfl⟩

/-! ## Appending -/

theorem strlenLoop_eq {i : ℕ} (hl : IsString mem ((p + i) % 2 ^ 64) l) {fuel : ℕ}
    (hfuel : l.length < fuel) : strlenLoop mem p fuel i = some (i + l.length) := by
  induction l generalizing i fuel with
  | nil =>
    obtain ⟨fuel, rfl⟩ := Nat.exists_eq_add_one_of_ne_zero (Nat.ne_zero_of_lt hfuel)
    have h0 : mem ((p + i) % 2 ^ 64) = 0#8 := hl
    rw [strlenLoop, if_neg (not_not.mpr h0)]
    rfl
  | cons c l ih =>
    obtain ⟨fuel, rfl⟩ := Nat.exists_eq_add_one_of_ne_zero (Nat.ne_zero_of_lt hfuel)
    rw [List.length_cons] at hfuel
    have hrest := hl.2.2
    rw [next_mod] at hrest
    rw [strlenLoop, hl.1, if_pos hl.2.1, ih hrest (by omega), List.length_cons]
    refine congrArg some ?_
    omega

/-- **What `strlen` returns.** -/
theorem strlen_eq (hp : p < 2 ^ 64) (hl : IsString mem p l) : strlen mem p = some l.length := by
  rw [strlen, strlenLoop_eq (by rwa [Nat.add_zero, Nat.mod_eq_of_lt hp]) (hl.length_lt hp),
    Nat.zero_add]

/-- **When `strncat` appends what it should**: unless what is appended is the end of what it is
appended to. -/
theorem strncat_appends_iff (hn : n < 2 ^ 64) (hl : IsString mem src l)
    (hfit : src + l.length < 2 ^ 64) (ho : IsString mem dest o)
    (hroom : dest + o.length + min n l.length < 2 ^ 64) :
    StrncatAppends mem dest o src l n ↔
      ¬ (0 < l.length ∧ l.length < n ∧ dest + o.length = src + l.length) := by
  have hsrc : src < 2 ^ 64 := by omega
  have hdest : dest < 2 ^ 64 := by omega
  have hmod : (dest + o.length) % 2 ^ 64 = dest + o.length := Nat.mod_eq_of_lt (by omega)
  have hterm := ho.terminator hdest
  rw [hmod] at hterm
  have hrun : strncat mem dest src n = some (strncpy mem (dest + o.length) src n) := by
    rw [strncat, strlen_eq hdest ho]
    simp only [hmod]
  rw [StrncatAppends, hrun, hmod]
  by_cases hbad : 0 < l.length ∧ l.length < n ∧ dest + o.length = src + l.length
  · refine iff_of_false ?_ (not_not.mpr hbad)
    rintro ⟨st, hst, -, hwritten, -⟩
    obtain rfl := Option.some.inj hst
    have hall := @strncpy_written_of_mem mem (dest + o.length) src n l hsrc hl l.length hbad.1
      le_rfl (by rw [Nat.mod_eq_of_lt hfit, hbad.2.2])
    have := congrArg List.length (hall.symm.trans hwritten)
    rw [length_places, length_places] at this
    omega
  · refine iff_of_true ?_ hbad
    have hapart : ∀ i, 0 < i → i < n → i ≤ l.length → dest + o.length ≠ (src + i) % 2 ^ 64 := by
      intro i hi hlt hle heq
      -- there is a 0 at the end of the string, and none in the middle of one
      rw [Nat.mod_eq_of_lt (by omega)] at heq
      rcases Nat.lt_or_ge i l.length with hmid | hend
      · have hchar := hl.get hsrc hmid
        rw [Nat.mod_eq_of_lt (by omega), ← heq, hterm] at hchar
        exact hl.ne_zero _ (List.getElem_mem hmid) hchar.symm
      · exact hbad ⟨by omega, by omega, by omega⟩
    obtain ⟨hwritten, hstring, hframe⟩ := @strncpyLoop_spec (dest + o.length) src n l ⟨mem, []⟩
      (by omega) hsrc hn (IsString.reads hl n) hapart
    rw [List.nil_append] at hwritten
    refine ⟨_, rfl, ?_, hwritten, fun a ha ↦ hframe a (hwritten ▸ ha)⟩
    refine ho.append hdest (fun i hi ↦ hframe _ ?_) (by rwa [hmod])
    rw [mem_places]
    rintro ⟨j, hj, heq⟩
    rw [Nat.mod_eq_of_lt (by omega), Nat.mod_eq_of_lt (by omega)] at heq
    omega

/-- **When the two functions write what they should.**  `strncpy` keeps to its `n` bytes if there
are fewer characters than that; `strncat` writes what it should in any case, as long as the
characters it appends are not the end of the string it appends them to. -/
theorem bounded_copies_iff (hdest : dest < 2 ^ 64) (hn : n < 2 ^ 64) (hl : IsString mem src l)
    (hfit : src + l.length < 2 ^ 64) :
    (StrncpyInBounds mem dest src n ↔
      l.length < n ∧ (dest ≤ src ∨ src + l.length < dest)) ∧
    ∀ o, IsString mem dest o → dest + o.length + min n l.length < 2 ^ 64 →
      (StrncatAppends mem dest o src l n ↔
        ¬ (0 < l.length ∧ l.length < n ∧ dest + o.length = src + l.length)) :=
  ⟨strncpy_inBounds_iff hdest hn hl hfit, fun _ ho hroom ↦
    strncat_appends_iff hn hl hfit ho hroom⟩

/-- `"a"` at `0x100`. -/
def stringA : ℕ → BitVec 8
  | 0x100 => 0x61#8
  | _ => 0#8

/-- There is room for `"a"` in two bytes at `0x200`, and it can be appended to what is there. -/
theorem bounded_copies_iff_two : StrncpyInBounds stringA 0x200 0x100 2 ∧
    StrncatAppends stringA 0x200 [] 0x100 [0x61#8] 2 := by
  have h := @bounded_copies_iff stringA 0x200 0x100 2 [0x61#8] (by decide) (by decide)
    (by decide) (by decide)
  exact ⟨h.1.mpr (by decide), (h.2 [] (by decide) (by decide)).mpr (by decide)⟩

/-- **`"a"` is copied with a bound of 1, and two bytes are written.** -/
theorem bounded_copies_one : (strncpy stringA 0x200 0x100 1).written = [0x200, 0x201] ∧
    ¬ StrncpyInBounds stringA 0x200 0x100 1 := by
  have hwritten : (strncpy stringA 0x200 0x100 1).written = [0x200, 0x201] := by decide
  refine ⟨hwritten, fun h ↦ ?_⟩
  have := h 0x201 (by rw [hwritten]; decide)
  exact absurd this (by decide)

end CubikOS.Str

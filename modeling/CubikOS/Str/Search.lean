import CubikOS.Lib.CString

/-!
# Searching strings

`strchr`, `strnchr` and `strrchr` of `Kernel/src/string.c`.

`strnchr` counts `n` down in the condition of its loop, and asks afterwards whether there is
anything left of it.  But `n--` has taken one away for the character that was found, and if `n` was
0 it has gone round to the largest number there is: the search fails if it succeeds with the last
character it may look at, and succeeds if it has come to the end without a result.  `strrchr` has
moved on by the time it makes a note of where it is.

* `strchr_eq_zero_iff` says what `strchr` is good for.
* `strnchrLoop_eq` and `strrchrLoop_spec` say what the other two return.
* `search_finds_iff` says when that is what was searched for.
-/

set_option autoImplicit false

namespace CubikOS.Str

open CString

/-! ## The functions -/

/-- The loop of `strchr`. -/
def strchrLoop (mem : ℕ → BitVec 8) (c : BitVec 8) : ℕ → ℕ → Option ℕ
  | 0, _ => none
  | fuel + 1, s =>
    if mem s ≠ c then if mem s = 0#8 then some 0 else strchrLoop mem c fuel (next s)
    else some s

/-- `strchr(s, c)`. -/
def strchr (mem : ℕ → BitVec 8) (s : ℕ) (c : ℤ) : Option ℕ :=
  strchrLoop mem (BitVec.ofInt 8 c) (2 ^ 64) s

/-- What `strnchr` does after its loop, with what is left of `n`. -/
def strnchrEnd (n s : ℕ) : ℕ := if n ≤ 0 then 0 else s

/-- The loop of `strnchr`. -/
def strnchrLoop (mem : ℕ → BitVec 8) (c : BitVec 8) : ℕ → ℕ → ℕ
  -- `n--` goes round
  | 0, s => strnchrEnd (2 ^ 64 - 1) s
  | n + 1, s =>
    if mem s ≠ c then if mem s = 0#8 then 0 else strnchrLoop mem c n (next s)
    else strnchrEnd n s

/-- `strnchr(s, c, n)`. -/
def strnchr (mem : ℕ → BitVec 8) (s : ℕ) (c : ℤ) (n : ℕ) : ℕ :=
  strnchrLoop mem (BitVec.ofInt 8 c) n s

/-- The loop of `strrchr`.  The characters are not made `char`s here. -/
def strrchrLoop (mem : ℕ → BitVec 8) (c : ℤ) : ℕ → ℕ → ℕ → Option ℕ
  | 0, _, _ => none
  | fuel + 1, s, occ =>
    if mem s ≠ 0#8 then
      if (mem s).toInt = c then strrchrLoop mem c fuel (next s) (next s)
      else strrchrLoop mem c fuel (next s) occ
    else some occ

/-- `strrchr(s, c)`. -/
def strrchr (mem : ℕ → BitVec 8) (s : ℕ) (c : ℤ) : Option ℕ := strrchrLoop mem c (2 ^ 64) s 0

/-! ## What is searched for -/

/-- `r` is the address of the first `c` among the first `n` characters of the string `l` at `s`, or
null if there is none. -/
def IsFirst (s : ℕ) (l : List (BitVec 8)) (c : BitVec 8) (n r : ℕ) : Prop :=
  (∃ k, k < n ∧ l[k]? = some c ∧ (∀ j, j < k → l[j]? ≠ some c) ∧ r = s + k) ∨
    (∀ k, k < n → l[k]? ≠ some c) ∧ r = 0

/-- `r` is the address of the last `c` in the string `l` at `s`, or null if there is none. -/
def IsLast (s : ℕ) (l : List (BitVec 8)) (c : BitVec 8) (r : ℕ) : Prop :=
  (∃ k, l[k]? = some c ∧ (∀ j, k < j → l[j]? ≠ some c) ∧ r = s + k) ∨ c ∉ l ∧ r = 0

/-- Both searches find what they should. -/
def Finds (mem : ℕ → BitVec 8) (s : ℕ) (l : List (BitVec 8)) (c : BitVec 8) (n : ℕ) : Prop :=
  IsFirst s l c n (strnchr mem s c.toInt n) ∧
    ∃ r, strrchr mem s c.toInt = some r ∧ IsLast s l c r

variable {mem : ℕ → BitVec 8} {s n : ℕ} {l : List (BitVec 8)} {c : BitVec 8}

/-! ## From the front -/

/-- The place where a character is found first, if it is found. -/
theorem getElem?_eq_some_idxOf (h : c ∈ l) : l[l.idxOf c]? = some c := by
  rw [List.getElem?_eq_getElem (List.idxOf_lt_length_of_mem h), List.getElem_idxOf]

theorem getElem?_ne_of_lt_idxOf {j : ℕ} (h : j < l.idxOf c) : l[j]? ≠ some c := by
  intro hj
  obtain ⟨hlt, hget⟩ := List.getElem?_eq_some_iff.mp hj
  have hnot : (l[j] == c) = false := List.not_of_lt_findIdx h
  rw [hget] at hnot
  exact absurd hnot (by simp)

/-- **What `strnchr` returns.** -/
theorem strnchrLoop_eq (hl : IsString mem s l) (hfit : s + l.length < 2 ^ 64) (hc : c ≠ 0#8) :
    strnchrLoop mem c n s = if n ≤ l.idxOf c then s + n
      else if c ∈ l ∧ l.idxOf c + 1 < n then s + l.idxOf c else 0 := by
  induction l generalizing s n with
  | nil =>
    have h0 : mem s = 0#8 := hl
    cases n with
    | zero => rfl
    | succ n =>
      rw [strnchrLoop, h0, if_pos hc.symm, if_pos rfl]
      simp
  | cons e l ih =>
    rw [List.length_cons] at hfit
    have hnext : next s = s + 1 := next_of_lt (by omega)
    cases n with
    | zero =>
      rw [if_pos (Nat.zero_le _)]
      rfl
    | succ n =>
      rw [strnchrLoop, hl.1]
      by_cases he : e = c
      · rw [if_neg (not_not.mpr he), he, List.idxOf_cons_self, if_neg (by omega), strnchrEnd]
        by_cases hn : n ≤ 0
        · rw [if_pos hn, if_neg (by omega)]
        · rw [if_neg hn, if_pos ⟨by simp, by omega⟩, Nat.add_zero]
      · have hmem : c ∈ e :: l ↔ c ∈ l := by
          rw [List.mem_cons]
          exact or_iff_right fun h ↦ he h.symm
        rw [if_pos he, if_neg hl.2.1, ih hl.2.2 (by omega), hnext, List.idxOf_cons_ne l he]
        simp only [hmem, Nat.succ_le_succ_iff, Nat.succ_lt_succ_iff, Nat.succ_eq_add_one]
        split_ifs <;> omega

/-- **When `strnchr` finds what it should**: there is one more character it may look at, or it
comes to the end of the string. -/
theorem strnchr_isFirst_iff (hs : s ≠ 0) (hl : IsString mem s l) (hfit : s + l.length < 2 ^ 64)
    (hc : c ≠ 0#8) : IsFirst s l c n (strnchr mem s c.toInt n) ↔
      if c ∈ l then l.idxOf c + 1 < n else l.length < n := by
  rw [strnchr, BitVec.ofInt_toInt, strnchrLoop_eq hl hfit hc, IsFirst]
  by_cases hmem : c ∈ l
  · have hfirst := getElem?_eq_some_idxOf hmem
    rw [if_pos hmem]
    constructor
    · rintro (⟨k, hk, hget, hmin, hr⟩ | ⟨hnone, hr⟩)
      · obtain rfl : k = l.idxOf c := by
          rcases Nat.lt_trichotomy k (l.idxOf c) with hlt | heq | hgt
          · exact absurd hget (getElem?_ne_of_lt_idxOf hlt)
          · exact heq
          · exact absurd hfirst (hmin _ hgt)
        by_contra hlast
        rw [if_neg (by omega), if_neg fun h ↦ hlast h.2] at hr
        omega
      · have hle : n ≤ l.idxOf c := by
          by_contra hlt
          exact hnone _ (by omega) hfirst
        rw [if_pos hle] at hr
        omega
    · intro hlt
      refine Or.inl ⟨l.idxOf c, by omega, hfirst, fun j hj ↦ getElem?_ne_of_lt_idxOf hj, ?_⟩
      rw [if_neg (by omega), if_pos ⟨hmem, hlt⟩]
  · have hnot : ∀ k, l[k]? ≠ some c := fun k hk ↦ hmem (List.mem_of_getElem? hk)
    have hidx : l.idxOf c = l.length := List.idxOf_eq_length hmem
    rw [if_neg hmem, hidx, if_neg fun h : c ∈ l ∧ _ ↦ hmem h.1]
    constructor
    · rintro (⟨k, -, hget, -⟩ | ⟨-, hr⟩)
      · exact absurd hget (hnot k)
      · by_contra hle
        rw [if_pos (Nat.le_of_not_lt hle)] at hr
        omega
    · intro hlt
      exact Or.inr ⟨fun k _ ↦ hnot k, if_neg (by omega)⟩

/-! ## From the back -/

/-- **What `strrchr` returns**: what lies behind the last `c`. -/
theorem strrchrLoop_spec (hl : IsString mem s l) (hfit : s + l.length < 2 ^ 64) {fuel : ℕ}
    (hfuel : l.length < fuel) (occ : ℕ) : ∃ r, strrchrLoop mem c.toInt fuel s occ = some r ∧
      ((∃ k, l[k]? = some c ∧ (∀ j, k < j → l[j]? ≠ some c) ∧ r = s + k + 1) ∨
        c ∉ l ∧ r = occ) := by
  induction l generalizing s fuel occ with
  | nil =>
    obtain ⟨fuel, rfl⟩ := Nat.exists_eq_add_one_of_ne_zero (Nat.ne_zero_of_lt hfuel)
    have h0 : mem s = 0#8 := hl
    rw [strrchrLoop, h0, if_neg (not_not.mpr rfl)]
    exact ⟨occ, rfl, Or.inr ⟨by simp, rfl⟩⟩
  | cons e l ih =>
    obtain ⟨fuel, rfl⟩ := Nat.exists_eq_add_one_of_ne_zero (Nat.ne_zero_of_lt hfuel)
    rw [List.length_cons] at hfit hfuel
    have hnext : next s = s + 1 := next_of_lt (by omega)
    rw [strrchrLoop, hl.1, if_pos hl.2.1]
    -- a `c` in the rest of the string is the last one, whatever comes first
    have hrest : ∀ {r}, (∃ k, l[k]? = some c ∧ (∀ j, k < j → l[j]? ≠ some c) ∧
        r = next s + k + 1) → ∃ k, (e :: l)[k]? = some c ∧
          (∀ j, k < j → (e :: l)[j]? ≠ some c) ∧ r = s + k + 1 := by
      rintro r ⟨k, hget, hmax, rfl⟩
      refine ⟨k + 1, hget, fun j hj ↦ ?_, by omega⟩
      obtain ⟨j, rfl⟩ := Nat.exists_eq_add_one_of_ne_zero (Nat.ne_zero_of_lt hj)
      exact hmax j (by omega)
    by_cases he : e = c
    · rw [if_pos (by rw [he])]
      obtain ⟨r, hrun, hr⟩ := @ih (next s) hl.2.2 (by omega) fuel (by omega) (next s)
      refine ⟨r, hrun, Or.inl ?_⟩
      rcases hr with hr | ⟨hnot, rfl⟩
      · exact hrest hr
      · refine ⟨0, by simp [he], fun j hj hget ↦ ?_, by omega⟩
        obtain ⟨j, rfl⟩ := Nat.exists_eq_add_one_of_ne_zero (Nat.ne_zero_of_lt hj)
        exact hnot (List.mem_of_getElem? hget)
    · rw [if_neg fun h ↦ he (BitVec.eq_of_toInt_eq h)]
      obtain ⟨r, hrun, hr⟩ := @ih (next s) hl.2.2 (by omega) fuel (by omega) occ
      refine ⟨r, hrun, ?_⟩
      rcases hr with hr | ⟨hnot, rfl⟩
      · exact Or.inl (hrest hr)
      · refine Or.inr ⟨fun hmem ↦ ?_, rfl⟩
        rcases List.mem_cons.mp hmem with hmem | hmem
        · exact he hmem.symm
        · exact hnot hmem

/-- **When `strrchr` finds what it should**: there is nothing to be found. -/
theorem strrchr_isLast_iff (hl : IsString mem s l) (hfit : s + l.length < 2 ^ 64) :
    (∃ r, strrchr mem s c.toInt = some r ∧ IsLast s l c r) ↔ c ∉ l := by
  obtain ⟨r, hrun, hr⟩ := @strrchrLoop_spec mem s l c hl hfit (2 ^ 64) (by omega) 0
  rw [strrchr, hrun]
  constructor
  · rintro ⟨r', hr', hlast⟩
    obtain rfl := Option.some.inj hr'
    rcases hr with ⟨k, hget, hmax, rfl⟩ | ⟨hnot, -⟩
    · rcases hlast with ⟨k', hget', hmax', hk'⟩ | ⟨hnot, -⟩
      · -- the last `c` is in one place
        obtain rfl : k = k' := by
          rcases Nat.lt_trichotomy k k' with hlt | heq | hgt
          · exact absurd hget' (hmax k' hlt)
          · exact heq
          · exact absurd hget (hmax' k hgt)
        omega
      · exact hnot
    · exact hnot
  · intro hnot
    refine ⟨r, rfl, Or.inr ⟨hnot, ?_⟩⟩
    rcases hr with ⟨k, hget, -⟩ | ⟨-, hr⟩
    · exact absurd (List.mem_of_getElem? hget) hnot
    · exact hr

/-- **When both searches find what they should**: there is nothing to be found, and `strnchr` comes
to the end of the string. -/
theorem search_finds_iff (hs : s ≠ 0) (hl : IsString mem s l) (hfit : s + l.length < 2 ^ 64)
    (hc : c ≠ 0#8) : Finds mem s l c n ↔ c ∉ l ∧ l.length < n := by
  rw [Finds, strnchr_isFirst_iff hs hl hfit hc, strrchr_isLast_iff hl hfit]
  constructor
  · rintro ⟨hfirst, hnot⟩
    rw [if_neg hnot] at hfirst
    exact ⟨hnot, hfirst⟩
  · rintro ⟨hnot, hlt⟩
    rw [if_neg hnot]
    exact ⟨hlt, hnot⟩

/-- `"ab"` at `0x100`. -/
def stringAb : ℕ → BitVec 8
  | 0x100 => 0x61#8
  | 0x101 => 0x62#8
  | _ => 0#8

/-- There is no `'c'` in `"ab"`. -/
theorem search_finds_iff_absent : Finds stringAb 0x100 [0x61#8, 0x62#8] 0x63#8 3 :=
  (search_finds_iff (by decide) (by decide) (by decide) (by decide)).mpr (by decide)

/-- **`strnchr` does not find `'a'` in one character of `"ab"`, and finds it in none; `strrchr`
finds `'a'` at the `'b'`.** -/
theorem search_finds_wrong : strnchr stringAb 0x100 (0x61#8).toInt 1 = 0 ∧
    strnchr stringAb 0x100 (0x61#8).toInt 0 = 0x100 ∧
    strrchr stringAb 0x100 (0x61#8).toInt = some 0x101 ∧
    ¬ Finds stringAb 0x100 [0x61#8, 0x62#8] 0x61#8 1 := by
  have hlast : strrchr stringAb 0x100 (0x61#8).toInt = some 0x101 := by decide +kernel
  refine ⟨by decide, by decide, hlast, ?_⟩
  rintro ⟨-, r, hr, hlast'⟩
  rw [hlast, Option.some.injEq] at hr
  rcases hlast' with ⟨k, hget, -, hk⟩ | ⟨hnot, -⟩
  · obtain rfl : k = 1 := by omega
    exact absurd hget (by decide)
  · exact hnot (by decide)

/-! ## `strchr` -/

theorem strchrLoop_spec (hs : s ≠ 0) (hl : IsString mem s l) (hfit : s + l.length < 2 ^ 64)
    (hc : c ≠ 0#8) {fuel : ℕ} (hfuel : l.length < fuel) :
    ∃ r, strchrLoop mem c fuel s = some r ∧ (r = 0 ↔ c ∉ l) := by
  induction l generalizing s fuel with
  | nil =>
    obtain ⟨fuel, rfl⟩ := Nat.exists_eq_add_one_of_ne_zero (Nat.ne_zero_of_lt hfuel)
    have h0 : mem s = 0#8 := hl
    rw [strchrLoop, h0, if_pos hc.symm, if_pos rfl]
    exact ⟨0, rfl, by simp⟩
  | cons e l ih =>
    obtain ⟨fuel, rfl⟩ := Nat.exists_eq_add_one_of_ne_zero (Nat.ne_zero_of_lt hfuel)
    rw [List.length_cons] at hfit hfuel
    have hnext : next s = s + 1 := next_of_lt (by omega)
    rw [strchrLoop, hl.1]
    by_cases he : e = c
    · rw [if_neg (not_not.mpr he)]
      exact ⟨s, rfl, by simp [hs, he]⟩
    · rw [if_pos he, if_neg hl.2.1]
      obtain ⟨r, hrun, hr⟩ := @ih (next s) (by omega) hl.2.2 (by omega) fuel (by omega)
      refine ⟨r, hrun, ?_⟩
      rw [hr, List.mem_cons, or_iff_right fun h ↦ he h.symm]

/-- **`strchr` finds a character if it is there.** -/
theorem strchr_eq_zero_iff (hs : s ≠ 0) (hl : IsString mem s l) (hfit : s + l.length < 2 ^ 64)
    (hc : c ≠ 0#8) : ∃ r, strchr mem s c.toInt = some r ∧ (r = 0 ↔ c ∉ l) := by
  rw [strchr, BitVec.ofInt_toInt]
  exact strchrLoop_spec hs hl hfit hc (by omega)

end CubikOS.Str

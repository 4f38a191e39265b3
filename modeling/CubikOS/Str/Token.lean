import CubikOS.Str.Search

/-!
# Cutting strings into tokens

`strspn`, `strcspn` and `strtok_r` of `Kernel/src/string.c`.

`strtok_r` skips the delimiters at the front of a string, writes a 0 behind what comes next, and
returns that.  The caller keeps a pointer for it, from which the next call is to go on.  `strtok_r`
reads this pointer and never writes it: it works out where the next call should go on, in a variable
of its own.  So each call after the first begins at whatever the pointer was set to before, and if
there is a token there it is returned again and again.

* `strspn_eq` and `strcspn_eq` say what is counted.
* `strtokFrom_none` and `strtokFrom_token` say what one call does.
* `Stuck` is the state of affairs in which every further call returns the same token.
* `strtokR_yields_iff` says when the calls return the tokens of a string.

A pointer is `none` if it is null.
-/

set_option autoImplicit false

namespace CubikOS.Str

open CString

/-! ## The functions -/

/-- The loop of `strspn`. -/
def strspnLoop (mem : ℕ → BitVec 8) (s2 : ℕ) : ℕ → ℕ → ℕ → Option ℕ
  | 0, _, _ => none
  | fuel + 1, s1, ret =>
    if mem s1 ≠ 0#8 then
      match strchr mem s2 (mem s1).toInt with
      | none => none
      | some r => if r ≠ 0 then strspnLoop mem s2 fuel (next s1) (ret + 1) else some ret
    else some ret

/-- `strspn(s1, s2)`. -/
def strspn (mem : ℕ → BitVec 8) (s1 s2 : ℕ) : Option ℕ := strspnLoop mem s2 (2 ^ 64) s1 0

/-- The loop of `strcspn`. -/
def strcspnLoop (mem : ℕ → BitVec 8) (s2 : ℕ) : ℕ → ℕ → ℕ → Option ℕ
  | 0, _, _ => none
  | fuel + 1, s1, ret =>
    if mem s1 ≠ 0#8 then
      match strchr mem s2 (mem s1).toInt with
      | none => none
      | some r => if r ≠ 0 then some ret else strcspnLoop mem s2 fuel (next s1) (ret + 1)
    else some ret

/-- `strcspn(s1, s2)`. -/
def strcspn (mem : ℕ → BitVec 8) (s1 s2 : ℕ) : Option ℕ := strcspnLoop mem s2 (2 ^ 64) s1 0

/-- What a call of `strtok_r` works on. -/
structure TokState where
  /-- Memory. -/
  mem : ℕ → BitVec 8
  /-- `*saveptr`. -/
  save : Option ℕ

/-- `strtok_r` from `p` on. -/
def strtokFrom (st : TokState) (p delim : ℕ) : Option (Option ℕ × TokState) :=
  match strspn st.mem p delim with
  | none => none
  | some skip =>
    let str := (p + skip) % 2 ^ 64
    match strcspn st.mem str delim with
    | none => none
    | some len =>
      let p := (str + len) % 2 ^ 64
      if p = str then some (none, st)
      else
        -- what `p` is set to is not kept
        some (some str, if st.mem p ≠ 0#8 then { st with mem := Function.update st.mem p 0#8 }
          else st)

/-- `strtok_r(str, delim, saveptr)`. -/
def strtokR (st : TokState) (str : Option ℕ) (delim : ℕ) : Option (Option ℕ × TokState) :=
  match str with
  | some str => strtokFrom st str delim
  | none =>
    match st.save with
    | some p => strtokFrom st p delim
    | none => some (none, st)

/-! ## What is expected -/

/-- Calling `strtok_r` with `str`, and then with null until it returns null, gives the tokens in
the list: the address that is returned, and the string that lies there then. -/
inductive Yields (delim : ℕ) : TokState → Option ℕ → List (ℕ × List (BitVec 8)) → Prop
  | null {st st' : TokState} {str : Option ℕ} (h : strtokR st str delim = some (none, st')) :
    Yields delim st str []
  | token {st st' : TokState} {str : Option ℕ} {r : ℕ} {t : List (BitVec 8)}
    {ts : List (ℕ × List (BitVec 8))} (h : strtokR st str delim = some (some r, st'))
    (ht : IsString st'.mem r t) (hts : Yields delim st' none ts) :
    Yields delim st str ((r, t) :: ts)

/-- A token begins at character `i` of `l`: there is no delimiter, and nothing or a delimiter comes
before it. -/
def TokenStart (d l : List (BitVec 8)) (i : ℕ) : Prop :=
  l.getD i 0#8 ∉ d ∧ (i = 0 ∨ l.getD (i - 1) 0#8 ∈ d)

instance (d l : List (BitVec 8)) (i : ℕ) : Decidable (TokenStart d l i) :=
  inferInstanceAs (Decidable (_ ∧ _))

/-- The tokens of the string `l` at `s`, and where they are: each of them goes on for as long as
there is no delimiter. -/
def tokens (d : List (BitVec 8)) (s : ℕ) (l : List (BitVec 8)) : List (ℕ × List (BitVec 8)) :=
  ((List.range l.length).filter fun i ↦ TokenStart d l i).map fun i ↦
    (s + i, (l.drop i).takeWhile fun c ↦ c ∉ d)

/-- The delimiters at the front. -/
def leading (d l : List (BitVec 8)) : List (BitVec 8) := l.takeWhile fun c ↦ c ∈ d

/-- What comes behind them, up to the next delimiter. -/
def firstToken (d l : List (BitVec 8)) : List (BitVec 8) :=
  (l.drop (leading d l).length).takeWhile fun c ↦ c ∉ d

/-- There are only delimiters at `p`. -/
def OnlyDelimiters (mem : ℕ → BitVec 8) (delim p : ℕ) : Prop :=
  ∃ d l, IsString mem delim d ∧ IsString mem p l ∧ ∀ c ∈ l, c ∈ d

/-! ## Counting -/

/-- A string of delimiters. -/
structure Delimiters (mem : ℕ → BitVec 8) (delim : ℕ) (d : List (BitVec 8)) : Prop where
  /-- The characters `d` lie at `delim`, with a 0 behind them. -/
  string : IsString mem delim d
  /-- `delim` is not null. -/
  ne_zero : delim ≠ 0
  /-- The string ends within the address space. -/
  fits : delim + d.length < 2 ^ 64

variable {mem : ℕ → BitVec 8} {p delim : ℕ} {l d : List (BitVec 8)}

theorem Delimiters.strchr (hd : Delimiters mem delim d) {c : BitVec 8} (hc : c ≠ 0#8) :
    ∃ r, strchr mem delim c.toInt = some r ∧ (r ≠ 0 ↔ c ∈ d) := by
  obtain ⟨r, hrun, hr⟩ := strchr_eq_zero_iff hd.ne_zero hd.string hd.fits hc
  exact ⟨r, hrun, by rw [Ne, hr, not_not]⟩

theorem strspnLoop_eq (hd : Delimiters mem delim d) (hl : IsString mem p l) {fuel : ℕ}
    (hfuel : l.length < fuel) (ret : ℕ) :
    strspnLoop mem delim fuel p ret = some (ret + (leading d l).length) := by
  induction l generalizing p fuel ret with
  | nil =>
    obtain ⟨fuel, rfl⟩ := Nat.exists_eq_add_one_of_ne_zero (Nat.ne_zero_of_lt hfuel)
    have h0 : mem p = 0#8 := hl
    rw [strspnLoop, h0, if_neg (not_not.mpr rfl)]
    rfl
  | cons c l ih =>
    obtain ⟨fuel, rfl⟩ := Nat.exists_eq_add_one_of_ne_zero (Nat.ne_zero_of_lt hfuel)
    rw [List.length_cons] at hfuel
    obtain ⟨r, hrun, hr⟩ := hd.strchr hl.2.1
    rw [strspnLoop, hl.1, if_pos hl.2.1, hrun, leading, List.takeWhile_cons]
    by_cases hc : c ∈ d
    · simp only [if_pos (hr.mpr hc), hc, decide_true, if_true, List.length_cons]
      rw [ih hl.2.2 (by omega), leading]
      refine congrArg some ?_
      omega
    · simp only [if_neg fun h ↦ hc (hr.mp h), hc, decide_false, Bool.false_eq_true, if_false,
        List.length_nil, Nat.add_zero]

/-- **What `strspn` counts**: the delimiters at the front. -/
theorem strspn_eq (hd : Delimiters mem delim d) (hp : p < 2 ^ 64) (hl : IsString mem p l) :
    strspn mem p delim = some (leading d l).length := by
  rw [strspn, strspnLoop_eq hd hl (hl.length_lt hp), Nat.zero_add]

theorem strcspnLoop_eq (hd : Delimiters mem delim d) (hl : IsString mem p l) {fuel : ℕ}
    (hfuel : l.length < fuel) (ret : ℕ) : strcspnLoop mem delim fuel p ret =
      some (ret + (l.takeWhile fun c ↦ c ∉ d).length) := by
  induction l generalizing p fuel ret with
  | nil =>
    obtain ⟨fuel, rfl⟩ := Nat.exists_eq_add_one_of_ne_zero (Nat.ne_zero_of_lt hfuel)
    have h0 : mem p = 0#8 := hl
    rw [strcspnLoop, h0, if_neg (not_not.mpr rfl)]
    rfl
  | cons c l ih =>
    obtain ⟨fuel, rfl⟩ := Nat.exists_eq_add_one_of_ne_zero (Nat.ne_zero_of_lt hfuel)
    rw [List.length_cons] at hfuel
    obtain ⟨r, hrun, hr⟩ := hd.strchr hl.2.1
    rw [strcspnLoop, hl.1, if_pos hl.2.1, hrun, List.takeWhile_cons]
    by_cases hc : c ∈ d
    · simp only [if_pos (hr.mpr hc), hc, not_true_eq_false, decide_false, Bool.false_eq_true,
        if_false, List.length_nil, Nat.add_zero]
    · simp only [if_neg fun h ↦ hc (hr.mp h), hc, not_false_eq_true, decide_true, if_true,
        List.length_cons]
      rw [ih hl.2.2 (by omega)]
      refine congrArg some ?_
      omega

/-- **What `strcspn` counts**: the characters up to the first delimiter. -/
theorem strcspn_eq (hd : Delimiters mem delim d) (hp : p < 2 ^ 64) (hl : IsString mem p l) :
    strcspn mem p delim = some (l.takeWhile fun c ↦ c ∉ d).length := by
  rw [strcspn, strcspnLoop_eq hd hl (hl.length_lt hp), Nat.zero_add]

/-! ## One call -/

theorem leading_le (d l : List (BitVec 8)) : (leading d l).length ≤ l.length :=
  (List.takeWhile_sublist _).length_le

/-- There are delimiters at the front. -/
theorem getD_mem_of_lt_leading {i : ℕ} (h : i < (leading d l).length) : l.getD i 0#8 ∈ d := by
  have hi : i < l.length := Nat.lt_of_lt_of_le h (leading_le d l)
  have hget : (leading d l)[i] = l[i] := List.IsPrefix.getElem (List.takeWhile_prefix _) h
  have hmem : (leading d l)[i] ∈ l.takeWhile fun c ↦ decide (c ∈ d) := List.getElem_mem h
  have hdec := List.mem_takeWhile_imp hmem
  rw [List.getD_eq_getElem l 0#8 hi, ← hget]
  exact of_decide_eq_true hdec

/-- There is none behind them. -/
theorem getD_notMem_leading (h : (leading d l).length < l.length) :
    l.getD (leading d l).length 0#8 ∉ d := by
  induction l with
  | nil => simp at h
  | cons c l ih =>
    rw [leading, List.takeWhile_cons] at h ⊢
    by_cases hc : c ∈ d
    · simp only [hc, decide_true, if_true, List.length_cons, Nat.succ_lt_succ_iff] at h ⊢
      exact ih h
    · simp only [hc, decide_false, Bool.false_eq_true, if_false, List.length_nil]
      exact hc

theorem leading_eq_length_iff : (leading d l).length = l.length ↔ ∀ c ∈ l, c ∈ d := by
  constructor
  · intro h c hc
    obtain ⟨i, hi, rfl⟩ := List.getElem_of_mem hc
    have := getD_mem_of_lt_leading (h ▸ hi)
    rwa [List.getD_eq_getElem l 0#8 hi] at this
  · intro h
    rw [leading, List.takeWhile_eq_self_iff.mpr fun c hc ↦ decide_eq_true (h c hc)]

theorem leading_lt_iff : (leading d l).length < l.length ↔ ¬ ∀ c ∈ l, c ∈ d := by
  rw [← leading_eq_length_iff]
  have := leading_le d l
  omega

theorem firstToken_pos (h : (leading d l).length < l.length) : 0 < (firstToken d l).length := by
  have hnot := getD_notMem_leading h
  rw [List.getD_eq_getElem l 0#8 h] at hnot
  rw [firstToken, List.drop_eq_getElem_cons h, List.takeWhile_cons, if_pos (decide_eq_true hnot)]
  exact Nat.succ_pos _

theorem firstToken_eq_take : firstToken d l =
    (l.drop (leading d l).length).take (firstToken d l).length :=
  List.prefix_iff_eq_take.mp (List.takeWhile_prefix _)

theorem firstToken_le (d l : List (BitVec 8)) :
    (leading d l).length + (firstToken d l).length ≤ l.length := by
  have hlead := leading_le d l
  have : (firstToken d l).length ≤ (l.drop (leading d l).length).length :=
    (List.takeWhile_sublist _).length_le
  rw [List.length_drop] at this
  omega

variable {st : TokState}

/-- **A call that finds only delimiters** returns null, and changes nothing. -/
theorem strtokFrom_none (hd : Delimiters st.mem delim d) (hp : p < 2 ^ 64)
    (hl : IsString st.mem p l) (h : ∀ c ∈ l, c ∈ d) :
    strtokFrom st p delim = some (none, st) := by
  have hrest := hl.drop_of_le hp (leading_le d l)
  have hlen := leading_eq_length_iff.mpr h
  rw [strtokFrom, strspn_eq hd hp hl]
  dsimp only
  rw [strcspn_eq hd (Nat.mod_lt _ (by decide)) hrest, hlen, List.drop_length, List.takeWhile_nil]
  simp

/-- **A call that finds a token** returns it, and writes a 0 behind it. -/
theorem strtokFrom_token (hd : Delimiters st.mem delim d) (hp : p < 2 ^ 64)
    (hl : IsString st.mem p l) (h : ¬ ∀ c ∈ l, c ∈ d) :
    strtokFrom st p delim = some (some ((p + (leading d l).length) % 2 ^ 64), { st with
      mem := Function.update st.mem
        ((p + ((leading d l).length + (firstToken d l).length)) % 2 ^ 64) 0#8 }) := by
  have hrest := hl.drop_of_le hp (leading_le d l)
  have hpos := firstToken_pos (leading_lt_iff.mpr h)
  have hle := firstToken_le d l
  have hlen := hl.length_lt hp
  have hend : ((p + (leading d l).length) % 2 ^ 64 + (firstToken d l).length) % 2 ^ 64 =
      (p + ((leading d l).length + (firstToken d l).length)) % 2 ^ 64 := by
    rw [Nat.mod_add_mod, Nat.add_assoc]
  rw [strtokFrom, strspn_eq hd hp hl]
  dsimp only
  rw [strcspn_eq hd (Nat.mod_lt _ (by decide)) hrest, ← firstToken]
  dsimp only
  rw [hend, if_neg (by omega)]
  split_ifs with hzero
  · rfl
  · -- the token is the last of the string, and the 0 is there
    have hself := Function.update_eq_self
      ((p + ((leading d l).length + (firstToken d l).length)) % 2 ^ 64) st.mem
    rw [not_not.mp hzero] at hself
    rw [hself]

/-! ## The tokens of a string -/

theorem tokens_eq_nil (s : ℕ) (h : ∀ c ∈ l, c ∈ d) : tokens d s l = [] := by
  rw [tokens, List.map_eq_nil_iff, List.filter_eq_nil_iff]
  intro i hi hstart
  rw [List.mem_range] at hi
  have hget := (of_decide_eq_true hstart).1
  rw [List.getD_eq_getElem l 0#8 hi] at hget
  exact hget (h _ (List.getElem_mem hi))

/-- **The first token.** -/
theorem tokens_eq_cons (s : ℕ) (h : ¬ ∀ c ∈ l, c ∈ d) :
    ∃ ts, tokens d s l = (s + (leading d l).length, firstToken d l) :: ts := by
  have hlt := leading_lt_iff.mpr h
  have hfirst : (List.range l.length).find? (fun i ↦ decide (TokenStart d l i)) =
      some (leading d l).length := by
    rw [List.find?_range_eq_some]
    refine ⟨decide_eq_true ⟨getD_notMem_leading hlt, ?_⟩, List.mem_range.mpr hlt, fun j hj ↦ ?_⟩
    · by_cases h0 : (leading d l).length = 0
      · exact Or.inl h0
      · exact Or.inr (getD_mem_of_lt_leading (by omega))
    · rw [Bool.not_eq_true', decide_eq_false_iff_not]
      exact fun hstart ↦ hstart.1 (getD_mem_of_lt_leading hj)
  rw [← List.head?_filter] at hfirst
  obtain ⟨tail, htail⟩ := List.head?_eq_some_iff.mp hfirst
  rw [tokens, htail, List.map_cons]
  exact ⟨_, rfl⟩

/-! ## Call after call -/

theorem Delimiters.exists_take (hd : Delimiters mem delim d) (a : ℕ) :
    ∃ k, Delimiters (Function.update mem a 0#8) delim (d.take k) := by
  have hfits := hd.fits
  obtain ⟨k, hk, hstring⟩ := hd.string.exists_take (by omega) a
  refine ⟨k, hstring, hd.ne_zero, ?_⟩
  rw [List.length_take_of_le hk]
  omega

/-- There is a token where the next call begins. -/
def Stuck (st : TokState) (delim : ℕ) : Prop :=
  ∃ q d l, st.save = some q ∧ q < 2 ^ 64 ∧ Delimiters st.mem delim d ∧ IsString st.mem q l ∧
    ¬ ∀ c ∈ l, c ∈ d

/-- **The token is returned, and it is still there.** -/
theorem Stuck.step (h : Stuck st delim) :
    ∃ r st', strtokR st none delim = some (some r, st') ∧ Stuck st' delim := by
  obtain ⟨q, d, l, hsave, hq, hd, hl, hnot⟩ := h
  have hrun : strtokR st none delim = strtokFrom st q delim := by
    rw [strtokR, hsave]
  rw [hrun, strtokFrom_token hd hq hl hnot]
  obtain ⟨k, hd'⟩ := hd.exists_take
    ((q + ((leading d l).length + (firstToken d l).length)) % 2 ^ 64)
  refine ⟨_, _, rfl, q, d.take k, _, hsave, hq, hd', hl.cut hq (firstToken_le d l), fun hall ↦ ?_⟩
  -- the character the token begins with
  have hlt := leading_lt_iff.mpr hnot
  have hpos := firstToken_pos hlt
  have hfirst := getD_notMem_leading hlt
  rw [List.getD_eq_getElem l 0#8 hlt] at hfirst
  exact hfirst (List.mem_of_mem_take (hall _ (List.mem_take_iff_getElem.mpr
    ⟨(leading d l).length, by omega, rfl⟩)))

/-- **There is no end to it.** -/
theorem Stuck.not_yields (h : Stuck st delim) (ts : List (ℕ × List (BitVec 8))) :
    ¬ Yields delim st none ts := by
  intro hts
  generalize hstr : (none : Option ℕ) = str at hts
  induction hts with
  | null hrun =>
    obtain ⟨r, st', hstep, -⟩ := h.step
    rw [hstr, hrun] at hstep
    simp at hstep
  | token hrun ht hts ih =>
    obtain ⟨r, st', hstep, hstuck⟩ := h.step
    rw [hstr, hrun] at hstep
    simp only [Option.some.injEq, Prod.mk.injEq] at hstep
    exact ih (hstep.2 ▸ hstuck) rfl

/-- A call that is the last one. -/
theorem yields_iff_of_null {str : Option ℕ} {st' : TokState}
    (h : strtokR st str delim = some (none, st')) {ts : List (ℕ × List (BitVec 8))} :
    Yields delim st str ts ↔ ts = [] := by
  constructor
  · intro hts
    cases hts with
    | null => rfl
    | token hrun => simp [h] at hrun
  · rintro rfl
    exact .null h

/-- A call that is not. -/
theorem yields_iff_of_token {str : Option ℕ} {st' : TokState} {r : ℕ} {t : List (BitVec 8)}
    (h : strtokR st str delim = some (some r, st')) (ht : IsString st'.mem r t)
    {ts : List (ℕ × List (BitVec 8))} :
    Yields delim st str ((r, t) :: ts) ↔ Yields delim st' none ts := by
  constructor
  · intro hts
    cases hts with
    | token hrun _ hts =>
      rw [h, Option.some.injEq, Prod.mk.injEq] at hrun
      exact hrun.2 ▸ hts
  · exact fun hts ↦ .token h ht hts

/-- **What further calls return**: null, if there is nothing to go on from, or only delimiters. -/
theorem yields_none_iff (hd : Delimiters st.mem delim d)
    (hsave : ∀ q, st.save = some q → q < 2 ^ 64) {ts : List (ℕ × List (BitVec 8))} :
    Yields delim st none ts ↔
      ts = [] ∧ ∀ q, st.save = some q → OnlyDelimiters st.mem delim q := by
  rcases hq : st.save with _ | q
  · rw [yields_iff_of_null (by rw [strtokR, hq])]
    simp
  · have hq' := hsave q hq
    have hfits := hd.fits
    have hrun : strtokR st none delim = strtokFrom st q delim := by
      rw [strtokR, hq]
    obtain ⟨l, hl⟩ := exists_isString (Nat.mod_lt _ (by decide))
      (hd.string.terminator (by omega)) hq'
    by_cases hall : ∀ c ∈ l, c ∈ d
    · rw [yields_iff_of_null (hrun.trans (strtokFrom_none hd hq' hl hall)), iff_self_and]
      rintro - q' hq''
      obtain rfl := Option.some.inj hq''
      exact ⟨d, l, hd.string, hl, hall⟩
    · have hstuck : Stuck st delim := ⟨q, d, l, hq, hq', hd, hl, hall⟩
      refine iff_of_false (hstuck.not_yields ts) ?_
      rintro ⟨-, honly⟩
      obtain ⟨d', l', hd', hl', hall'⟩ := honly q rfl
      rw [← hd'.unique hd.string, ← hl'.unique hl] at hall
      exact hall hall'

variable {s : ℕ} {save : Option ℕ}

/-- **When the calls return the tokens of a string**: there are none, or there is one and nothing
but delimiters where `*saveptr` happens to lead once a 0 has been written behind the token. -/
theorem strtokR_yields_iff (hl : IsString mem s l) (hfits : s + l.length < 2 ^ 64)
    (hd : Delimiters mem delim d) (hsave : ∀ q, save = some q → q < 2 ^ 64) :
    Yields delim ⟨mem, save⟩ (some s) (tokens d s l) ↔
      tokens d s l = [] ∨ (tokens d s l).length = 1 ∧ ∀ q, save = some q →
        OnlyDelimiters (Function.update mem
          (s + ((leading d l).length + (firstToken d l).length)) 0#8) delim q := by
  have hs : s < 2 ^ 64 := by omega
  by_cases hall : ∀ c ∈ l, c ∈ d
  · have hrun : strtokR ⟨mem, save⟩ (some s) delim = some (none, ⟨mem, save⟩) :=
      @strtokFrom_none s delim l d ⟨mem, save⟩ hd hs hl hall
    rw [yields_iff_of_null hrun, tokens_eq_nil s hall]
    simp
  · obtain ⟨ts, hts⟩ := tokens_eq_cons s hall
    have hle := firstToken_le d l
    have hrun : strtokR ⟨mem, save⟩ (some s) delim = some (some (s + (leading d l).length),
        ⟨Function.update mem (s + ((leading d l).length + (firstToken d l).length)) 0#8,
          save⟩) := by
      have := @strtokFrom_token s delim l d ⟨mem, save⟩ hd hs hl hall
      rwa [Nat.mod_eq_of_lt (by omega), Nat.mod_eq_of_lt (by omega)] at this
    have htoken : IsString
        (Function.update mem (s + ((leading d l).length + (firstToken d l).length)) 0#8)
        (s + (leading d l).length) (firstToken d l) := by
      have hrest := hl.drop_of_le hs (leading_le d l)
      rw [Nat.mod_eq_of_lt (by omega)] at hrest
      have hcut := @IsString.cut mem _ _ (by omega) hrest (firstToken d l).length
        (by rw [List.length_drop]; omega)
      rwa [← firstToken_eq_take, Nat.mod_eq_of_lt (by omega), Nat.add_assoc] at hcut
    obtain ⟨k, hd'⟩ := hd.exists_take (s + ((leading d l).length + (firstToken d l).length))
    rw [hts, yields_iff_of_token hrun htoken, yields_none_iff hd' hsave]
    simp [List.length_eq_zero_iff]

/-- `"a,b"` at `0x100`, `"ab"` at `0x200` and `","` at `0x300`. -/
def stringsAb : ℕ → BitVec 8
  | 0x100 => 0x61#8
  | 0x101 => 0x2C#8
  | 0x102 => 0x62#8
  | 0x200 => 0x61#8
  | 0x201 => 0x62#8
  | 0x300 => 0x2C#8
  | _ => 0#8

theorem delimiters_stringsAb : Delimiters stringsAb 0x300 [0x2C#8] :=
  ⟨by decide, by decide, by decide⟩

/-- The token of `"ab"`. -/
theorem strtokR_yields_iff_one :
    Yields 0x300 ⟨stringsAb, none⟩ (some 0x200) [(0x200, [0x61#8, 0x62#8])] :=
  (@strtokR_yields_iff stringsAb 0x300 [0x61#8, 0x62#8] [0x2C#8] 0x200 none (by decide)
    (by decide) delimiters_stringsAb (by simp)).mpr (Or.inr ⟨by decide, by simp⟩)

/-- **The second token of `"a,b"` is not returned.** -/
theorem strtokR_yields_first :
    tokens [0x2C#8] 0x100 [0x61#8, 0x2C#8, 0x62#8] = [(0x100, [0x61#8]), (0x102, [0x62#8])] ∧
    Yields 0x300 ⟨stringsAb, none⟩ (some 0x100) [(0x100, [0x61#8])] ∧
    ¬ Yields 0x300 ⟨stringsAb, none⟩ (some 0x100)
      (tokens [0x2C#8] 0x100 [0x61#8, 0x2C#8, 0x62#8]) := by
  have htokens : tokens [0x2C#8] 0x100 [0x61#8, 0x2C#8, 0x62#8] =
      [(0x100, [0x61#8]), (0x102, [0x62#8])] := by decide
  have hrun : strtokR ⟨stringsAb, none⟩ (some 0x100) 0x300 =
      some (some 0x100, ⟨Function.update stringsAb 0x101 0#8, none⟩) :=
    @strtokFrom_token 0x100 0x300 [0x61#8, 0x2C#8, 0x62#8] [0x2C#8] ⟨stringsAb, none⟩
      delimiters_stringsAb (by decide) (by decide) (by decide)
  have htoken : IsString (Function.update stringsAb 0x101 0#8) 0x100 [0x61#8] := by decide
  have hnull : strtokR ⟨Function.update stringsAb 0x101 0#8, none⟩ none 0x300 =
      some (none, ⟨Function.update stringsAb 0x101 0#8, none⟩) := rfl
  refine ⟨htokens, (yields_iff_of_token hrun htoken).mpr ((yields_iff_of_null hnull).mpr rfl), ?_⟩
  rw [htokens, yields_iff_of_token hrun htoken, yields_iff_of_null hnull]
  simp

end CubikOS.Str

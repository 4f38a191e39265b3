import CubikOS.Lib.Spans
import CubikOS.Str.Token

/-!
# Spans of a string

`strspn` and `strcspn` of `Kernel/src/string.c`, on their own and in turn.

Each of them counts characters at the front of a string, and where the one comes to a stop the other
one can go on.

* `alternate_isString` says that calls in turn go along the string as the spans of a list do.
* `spans_complementary` is about both functions, at any place of a string and in turn.
-/

set_option autoImplicit false

namespace CubikOS.Str

open CString Spans

/-! ## What is expected -/

/-- `n` is the length of the longest part at the front of a string all of whose characters have the
property `P`. -/
def LongestPrefix (P : BitVec 8 → Prop) (l : List (BitVec 8)) (n : ℕ) : Prop :=
  IsGreatest {k | k ≤ l.length ∧ ∀ c ∈ l.take k, P c} n

/-- Where `n` calls of `f` and `g` in turn lead to from `p`, each one moving on by what it
returns. -/
def alternate (f g : ℕ → Option ℕ) : ℕ → ℕ → Option ℕ
  | 0, p => some p
  | n + 1, p =>
    match f p with
    | none => none
    | some k => alternate g f n ((p + k) % 2 ^ 64)

/-- Calls in turn stay inside the string `l` at `s`, and end behind its last character. -/
def Consumes (s : ℕ) (l : List (BitVec 8)) (f g : ℕ → Option ℕ) : Prop :=
  ∀ n, ∃ k ≤ l.length, alternate f g n s = some ((s + k) % 2 ^ 64) ∧ (l.length < n → k = l.length)

/-- The spans of the string `l` at `s` are the longest ones, and they meet. -/
structure Complementary (mem : ℕ → BitVec 8) (s delim : ℕ) (l d : List (BitVec 8)) : Prop where
  /-- `strspn` counts the characters that are in `d`. -/
  strspn : ∃ n, strspn mem s delim = some n ∧ LongestPrefix (· ∈ d) l n
  /-- `strcspn` counts those that are not. -/
  strcspn : ∃ n, strcspn mem s delim = some n ∧ LongestPrefix (· ∉ d) l n
  /-- In front of a character one of the two returns 0. -/
  one_zero : ∀ i, i < l.length → ∃ m n, Str.strspn mem ((s + i) % 2 ^ 64) delim = some m ∧
    Str.strcspn mem ((s + i) % 2 ^ 64) delim = some n ∧ (m = 0 ↔ n ≠ 0)
  /-- In turn, with `strspn` first, the two go through the string. -/
  consumes : Consumes s l (fun p ↦ Str.strspn mem p delim) fun p ↦ Str.strcspn mem p delim
  /-- So they do with `strcspn` first. -/
  consumes' : Consumes s l (fun p ↦ Str.strcspn mem p delim) fun p ↦ Str.strspn mem p delim

/-! ## The calls in turn -/

variable {mem : ℕ → BitVec 8} {s delim : ℕ} {l d : List (BitVec 8)}

/-- `f` counts the characters at the front of a string that have the property `p`. -/
def Counts (mem : ℕ → BitVec 8) (f : ℕ → Option ℕ) (p : BitVec 8 → Bool) : Prop :=
  ∀ s l, s < 2 ^ 64 → IsString mem s l → f s = some (l.takeWhile p).length

/-- What is left of a string when a part is cut off. -/
theorem isString_dropWhile (hs : s < 2 ^ 64) (hl : IsString mem s l) (p : BitVec 8 → Bool) :
    IsString mem ((s + (l.takeWhile p).length) % 2 ^ 64) (l.dropWhile p) := by
  rw [← List.takeWhile_append_dropWhile (p := p) (l := l)] at hl
  exact hl.drop hs

/-- **Calls in turn go along the string as spans do.** -/
theorem alternate_isString {f g : ℕ → Option ℕ} {p q : BitVec 8 → Bool} (hf : Counts mem f p)
    (hg : Counts mem g q) (hs : s < 2 ^ 64) (hl : IsString mem s l) (n : ℕ) :
    alternate f g n s = some ((s + spans p q n l) % 2 ^ 64) := by
  induction n generalizing f g p q s l with
  | zero => rw [alternate, spans, Nat.add_zero, Nat.mod_eq_of_lt hs]
  | succ n ih =>
    have hrest := isString_dropWhile hs hl p
    simp only [alternate, hf s l hs hl]
    rw [ih hg hf (Nat.mod_lt _ (by decide)) hrest, spans, Nat.mod_add_mod, Nat.add_assoc]

theorem consumes_of_counts {f g : ℕ → Option ℕ} {p q : BitVec 8 → Bool} (hf : Counts mem f p)
    (hg : Counts mem g q) (hpq : ∀ c, q c = !p c) (hs : s < 2 ^ 64) (hl : IsString mem s l) :
    Consumes s l f g :=
  fun n ↦ ⟨spans p q n l, spans_le p q n l, alternate_isString hf hg hs hl n, spans_eq_length hpq⟩

/-- **The two functions have complementary spans**, which are the longest ones. -/
theorem spans_complementary (hs : s < 2 ^ 64) (hl : IsString mem s l)
    (hd : Delimiters mem delim d) : Complementary mem s delim l d := by
  have hspn : Counts mem (fun p ↦ strspn mem p delim) fun c ↦ decide (c ∈ d) :=
    fun _ _ hp hm ↦ strspn_eq hd hp hm
  have hcspn : Counts mem (fun p ↦ strcspn mem p delim) fun c ↦ decide (c ∉ d) :=
    fun _ _ hp hm ↦ strcspn_eq hd hp hm
  have hnot : ∀ c : BitVec 8, decide (c ∉ d) = !decide (c ∈ d) := fun c ↦ decide_not
  have hnot' : ∀ c : BitVec 8, decide (c ∈ d) = !decide (c ∉ d) := fun c ↦ by
    rw [hnot, Bool.not_not]
  refine ⟨⟨_, hspn s l hs hl, ?_⟩, ⟨_, hcspn s l hs hl, ?_⟩, fun i hi ↦ ?_,
    consumes_of_counts hspn hcspn hnot hs hl, consumes_of_counts hcspn hspn hnot' hs hl⟩
  · simpa only [LongestPrefix, decide_eq_true_iff] using
      isGreatest_takeWhile (fun c ↦ decide (c ∈ d)) l
  · simpa only [LongestPrefix, decide_eq_true_iff] using
      isGreatest_takeWhile (fun c ↦ decide (c ∉ d)) l
  · have hpos : 0 < (l.drop i).length := by
      rw [List.length_drop]
      exact Nat.sub_pos_of_lt hi
    have hrest := hl.drop_of_le hs hi.le
    have hlt : (s + i) % 2 ^ 64 < 2 ^ 64 := Nat.mod_lt _ (by decide)
    exact ⟨_, _, hspn _ _ hlt hrest, hcspn _ _ hlt hrest, takeWhile_length_eq_zero_iff hnot hpos⟩

/-- `"a,b"`, with `","` for delimiters. -/
theorem spans_complementary_ab :
    Complementary stringsAb 0x100 0x300 [0x61#8, 0x2C#8, 0x62#8] [0x2C#8] :=
  spans_complementary (by decide) (by decide) delimiters_stringsAb

end CubikOS.Str

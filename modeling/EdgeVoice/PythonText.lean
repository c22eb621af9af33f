import EdgeVoice.StepSystem

/-! Python's `str` as the list of its code points, with the string operations
the workers use: `split()`, `strip()`, `" ".join`, truth of a string, and the
formats `:.3f` and `{n}`. A float is its exact rational value; `:.3f` rounds that
value half-even, as CPython does. Negative zero, infinities and nan are outside. -/

namespace EdgeVoice.PythonText

/-- A `str`, as the list of its code points. -/
abbrev Str := List Char

instance (text : Str) (texts : List Str) : Decidable (text ∈ texts) := inferInstance

/-- `str.isspace` for one code point. -/
def isSpace (c : Char) : Bool :=
  (9 ≤ c.toNat && c.toNat ≤ 13) || (28 ≤ c.toNat && c.toNat ≤ 32) || c.toNat == 0x85 ||
    c.toNat == 0xa0 || c.toNat == 0x1680 || (0x2000 ≤ c.toNat && c.toNat ≤ 0x200a) ||
    c.toNat == 0x2028 || c.toNat == 0x2029 || c.toNat == 0x202f || c.toNat == 0x205f ||
    c.toNat == 0x3000

/-- `text.split()`: the maximal runs of code points that are not white space. -/
def split (text : Str) : List Str := (text.splitOnP isSpace).filter (· ≠ [])

/-- `text.strip()`. -/
def strip (text : Str) : Str := (text.dropWhile isSpace).rdropWhile isSpace

/-- `" ".join(parts)`. -/
def joinWords (parts : List Str) : Str := List.intercalate [' '] parts

/-- A string with something to show: some code point is not white space. -/
def Shows (text : Str) : Prop := ∃ c ∈ text, isSpace c = false

instance (text : Str) : Decidable (Shows text) := by unfold Shows; infer_instance

theorem strip_eq_nil_iff (text : Str) : strip text = [] ↔ ¬Shows text := by
  rw [strip, List.rdropWhile_eq_nil_iff]
  constructor
  · intro blank ⟨c, member, visible⟩
    have stripped : text.dropWhile isSpace = [] := by
      cases kept : text.dropWhile isSpace with
      | nil => rfl
      | cons head rest =>
        have first := List.head_dropWhile_not isSpace
          (by simp [kept] : text.dropWhile isSpace ≠ [])
        simp only [kept, List.head_cons] at first
        have space := blank head (by simp [kept])
        simp [space] at first
    have space := List.dropWhile_eq_nil_iff.mp stripped c member
    simp [space] at visible
  · intro blank c member
    by_contra visible
    exact blank ⟨c, (List.dropWhile_sublist isSpace).subset member, by simpa using visible⟩

theorem mem_joinWords {parts : List Str} {c : Char} (h : c ∈ joinWords parts) :
    c = ' ' ∨ ∃ part ∈ parts, c ∈ part := by
  induction parts with
  | nil => simp [joinWords] at h
  | cons part rest ih =>
    cases rest with
    | nil => exact Or.inr ⟨part, by simp, by simpa [joinWords] using h⟩
    | cons next rest =>
      rw [joinWords, List.intercalate_cons_cons, List.mem_append, List.mem_append] at h
      rcases h with (h | h) | h
      · exact Or.inr ⟨part, by simp, h⟩
      · exact Or.inl (by simpa using h)
      · rcases ih h with space | ⟨other, member, inside⟩
        · exact Or.inl space
        · exact Or.inr ⟨other, by simp [member], inside⟩

theorem joinWords_of_mem {parts : List Str} {part : Str} {c : Char}
    (member : part ∈ parts) (h : c ∈ part) : c ∈ joinWords parts := by
  induction parts with
  | nil => simp at member
  | cons first rest ih =>
    cases rest with
    | nil =>
      have same : part = first := by simpa using member
      simpa [joinWords, same] using h
    | cons next rest =>
      rw [joinWords, List.intercalate_cons_cons, List.mem_append, List.mem_append]
      rcases List.mem_cons.mp member with rfl | later
      · exact Or.inl (Or.inl h)
      · exact Or.inr (ih later)

/-- Joined and stripped lines are empty exactly when no line shows anything. -/
theorem strip_joinWords_eq_nil_iff (parts : List Str) :
    strip (joinWords parts) = [] ↔ ∀ part ∈ parts, ¬Shows part := by
  rw [strip_eq_nil_iff]
  constructor
  · intro blank part member ⟨c, inside, visible⟩
    exact blank ⟨c, joinWords_of_mem member inside, visible⟩
  · intro blank ⟨c, inside, visible⟩
    rcases mem_joinWords inside with rfl | ⟨part, member, inPart⟩
    · simp [isSpace] at visible
    · exact blank part member ⟨c, inPart, visible⟩

/-- The nearest integer, ties to even. -/
def roundHalfEven (q : ℚ) : ℤ :=
  if q - ⌊q⌋ < 1 / 2 then ⌊q⌋
  else if 1 / 2 < q - ⌊q⌋ then ⌊q⌋ + 1
  else if ⌊q⌋ % 2 = 0 then ⌊q⌋ else ⌊q⌋ + 1

/-- `f"{n}"` for a natural number. -/
def decimal (n : ℕ) : Str := Nat.toDigits 10 n

/-- `f"{x:.3f}"`. -/
def fixed3 (x : ℚ) : Str :=
  let thousandths := (roundHalfEven (|x| * 1000)).toNat
  (if x < 0 then ['-'] else []) ++ decimal (thousandths / 1000) ++
    ['.', Nat.digitChar (thousandths / 100 % 10), Nat.digitChar (thousandths / 10 % 10),
      Nat.digitChar (thousandths % 10)]

example : fixed3 (5 / 2) = ['2', '.', '5', '0', '0'] := by decide +kernel
example : fixed3 (-1 / 16) = ['-', '0', '.', '0', '6', '2'] := by decide +kernel

theorem decimal_injective : Function.Injective decimal := by
  intro m n same
  have read := congrArg (Nat.ofDigitChars 10 · 0) same
  simpa only [decimal, Nat.ofDigitChars_ten_toDigits] using read

theorem dash_notMem_decimal (n : ℕ) : '-' ∉ decimal n := by
  intro member
  have := Nat.isDigit_of_mem_toDigits (by norm_num) (by norm_num) member
  exact absurd this (by decide)

theorem digitChar_ne_dash (n : ℕ) : Nat.digitChar (n % 10) ≠ '-' := by
  have small : n % 10 < 10 := Nat.mod_lt _ (by norm_num)
  interval_cases n % 10 <;> decide

theorem dash_notMem_fixed3 {x : ℚ} (h : 0 ≤ x) : '-' ∉ fixed3 x := by
  have sign : ¬x < 0 := not_lt.mpr h
  simp only [fixed3, sign, if_false, List.nil_append, List.mem_append, not_or]
  refine ⟨dash_notMem_decimal _, ?_⟩
  simp only [List.mem_cons, List.not_mem_nil, or_false, not_or]
  exact ⟨by decide, (digitChar_ne_dash _).symm, (digitChar_ne_dash _).symm,
    (digitChar_ne_dash _).symm⟩

/-- Two texts cut at their last separator. -/
theorem append_sep_inj {a b x y : Str} {sep : Char} (hx : sep ∉ x) (hy : sep ∉ y)
    (same : a ++ sep :: x = b ++ sep :: y) : a = b ∧ x = y := by
  rcases List.append_eq_append_iff.mp same with ⟨m, rfl, rest⟩ | ⟨m, rfl, rest⟩
  · cases m with
    | nil => simpa using rest
    | cons head m =>
      simp only [List.cons_append, List.cons.injEq] at rest
      exact absurd (by simp [rest.2]) hx
  · cases m with
    | nil => simpa [eq_comm] using rest
    | cons head m =>
      simp only [List.cons_append, List.cons.injEq] at rest
      exact absurd (by simp [rest.2]) hy

end EdgeVoice.PythonText

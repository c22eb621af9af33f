import Mathlib

/-! JSON texts. `write` is a serializer in the layout of Python's `json.dumps`, with or without
its escapes for what is not ASCII, and `parse` a reader of RFC 8259. A number is the numeral it
is written as. A string is its code points; the reader gets them from UTF-16 code units, as a
browser's does, and refuses a surrogate on its own. -/

namespace EdgeVoice.JsonText

/-- The digits in front, and what follows them. -/
def digits : List Char → List Char × List Char
  | [] => ([], [])
  | c :: rest => if c.isDigit then ((digits rest).1.cons c, (digits rest).2) else ([], c :: rest)

/-- `e`, a sign that may be missing, and digits. -/
def isExponent : List Char → Bool
  | [] => true
  | [_] => false
  | e :: sign :: rest =>
    let power := if sign = '+' ∨ sign = '-' then rest else sign :: rest
    (e = 'e' || e = 'E') && power ≠ [] && power.all Char.isDigit

def isFraction : List Char → Bool
  | '.' :: rest => (digits rest).1 ≠ [] && isExponent (digits rest).2
  | rest => isExponent rest

def isUnsigned (text : List Char) : Bool :=
  let whole := (digits text).1
  whole ≠ [] && (whole.head? ≠ some '0' || whole.length = 1) && isFraction (digits text).2

def isNumeral : List Char → Bool
  | '-' :: text => isUnsigned text
  | text => isUnsigned text

structure Numeral where
  text : List Char
  valid : isNumeral text = true
deriving DecidableEq

/-- The characters that numerals are made of. -/
def inNumeral (c : Char) : Bool :=
  c.isDigit || c = '-' || c = '+' || c = '.' || c = 'e' || c = 'E'

inductive Json
  | null
  | bool (b : Bool)
  | num (n : Numeral)
  | str (text : List Char)
  | arr (items : List Json)
  | obj (members : List (List Char × Json))

section Writer

/-- `\uXXXX`. -/
def escapeUnit (unit : ℕ) : List Char :=
  ['\\', 'u', Nat.digitChar (unit / 4096 % 16), Nat.digitChar (unit / 256 % 16),
    Nat.digitChar (unit / 16 % 16), Nat.digitChar (unit % 16)]

/-- The UTF-16 code units of a code point. -/
def units (c : Char) : List ℕ :=
  if c.toNat < 0x10000 then [c.toNat]
  else [0xd800 + (c.toNat - 0x10000) / 0x400, 0xdc00 + (c.toNat - 0x10000) % 0x400]

def escape (ascii : Bool) (c : Char) : List Char :=
  if c = '"' then ['\\', '"']
  else if c = '\\' then ['\\', '\\']
  else if c = '\n' then ['\\', 'n']
  else if c = '\r' then ['\\', 'r']
  else if c = '\t' then ['\\', 't']
  else if c = '\x0c' then ['\\', 'f']
  else if c = '\x08' then ['\\', 'b']
  else if c.toNat < 32 ∨ ascii = true ∧ 126 < c.toNat then (units c).flatMap escapeUnit
  else [c]

def quote (ascii : Bool) (text : List Char) : List Char :=
  '"' :: text.flatMap (escape ascii) ++ ['"']

mutual

def write (ascii : Bool) : Json → List Char
  | .null => ['n', 'u', 'l', 'l']
  | .bool true => ['t', 'r', 'u', 'e']
  | .bool false => ['f', 'a', 'l', 's', 'e']
  | .num n => n.text
  | .str text => quote ascii text
  | .arr [] => ['[', ']']
  | .arr (item :: items) => '[' :: write ascii item ++ writeItems ascii items
  | .obj [] => ['\x7b', '\x7d']
  | .obj ((key, value) :: members) =>
    '\x7b' :: quote ascii key ++ ':' :: ' ' :: write ascii value ++ writeMembers ascii members

/-- The items after the first. -/
def writeItems (ascii : Bool) : List Json → List Char
  | [] => [']']
  | item :: items => ',' :: ' ' :: write ascii item ++ writeItems ascii items

def writeMembers (ascii : Bool) : List (List Char × Json) → List Char
  | [] => ['\x7d']
  | (key, value) :: members =>
    ',' :: ' ' :: quote ascii key ++ ':' :: ' ' :: write ascii value ++
      writeMembers ascii members

end

end Writer

section Reader

def isBlank (c : Char) : Bool := c = ' ' || c = '\t' || c = '\n' || c = '\r'

def skipBlank (text : List Char) : List Char := text.dropWhile isBlank

def hexValue (c : Char) : Option ℕ :=
  if c.isDigit then some (c.toNat - 48)
  else if 'a' ≤ c ∧ c ≤ 'f' then some (c.toNat - 87)
  else if 'A' ≤ c ∧ c ≤ 'F' then some (c.toNat - 55)
  else none

def readUnit (a b c d : Char) : Option ℕ := do
  some (4096 * (← hexValue a) + 256 * (← hexValue b) + 16 * (← hexValue c) + (← hexValue d))

/-- The escapes of one character. -/
def readEscape (c : Char) : Option ℕ :=
  if c = '"' ∨ c = '\\' ∨ c = '/' then some c.toNat
  else if c = 'n' then some 10
  else if c = 'r' then some 13
  else if c = 't' then some 9
  else if c = 'f' then some 12
  else if c = 'b' then some 8
  else none

/-- The code units of a string up to its closing quote, and what follows. -/
def readUnits : List Char → Option (List ℕ × List Char)
  | [] => none
  | c :: rest =>
    if c = '"' then some ([], rest)
    else if c = '\\' then
      match rest with
      | 'u' :: a :: b :: c :: d :: rest => do
        let unit ← readUnit a b c d
        let (more, rest) ← readUnits rest
        some (unit :: more, rest)
      | e :: rest => do
        let unit ← readEscape e
        let (more, rest) ← readUnits rest
        some (unit :: more, rest)
      | [] => none
    else if c.toNat < 32 then none
    else do
      let (more, rest) ← readUnits rest
      some (units c ++ more, rest)

/-- The code points of code units. -/
def decodeUnits : List ℕ → Option (List Char)
  | [] => some []
  | unit :: rest =>
    if 0xd800 ≤ unit ∧ unit < 0xdc00 then
      match rest with
      | low :: rest =>
        if 0xdc00 ≤ low ∧ low < 0xe000 then
          (decodeUnits rest).map
            (.cons (Char.ofNat (0x10000 + (unit - 0xd800) * 0x400 + (low - 0xdc00))))
        else none
      | [] => none
    else if 0xdc00 ≤ unit ∧ unit < 0xe000 then none
    else (decodeUnits rest).map (.cons (Char.ofNat unit))

def readString (text : List Char) : Option (List Char × List Char) := do
  let (found, rest) ← readUnits text
  some (← decodeUnits found, rest)

def readNumeral (text : List Char) : Option (Numeral × List Char) :=
  if valid : isNumeral (text.takeWhile inNumeral) = true then
    some (⟨text.takeWhile inNumeral, valid⟩, text.dropWhile inNumeral)
  else none

mutual

/-- A value and what follows it. The fuel bounds the calls that are open at a time. -/
def readValue : ℕ → List Char → Option (Json × List Char)
  | 0, _ => none
  | fuel + 1, text =>
    match skipBlank text with
    | 'n' :: 'u' :: 'l' :: 'l' :: rest => some (.null, rest)
    | 't' :: 'r' :: 'u' :: 'e' :: rest => some (.bool true, rest)
    | 'f' :: 'a' :: 'l' :: 's' :: 'e' :: rest => some (.bool false, rest)
    | '"' :: rest => (readString rest).map fun (text, rest) => (.str text, rest)
    | '[' :: rest =>
      match skipBlank rest with
      | ']' :: rest => some (.arr [], rest)
      | rest => (readItems fuel rest).map fun (items, rest) => (.arr items, rest)
    | '\x7b' :: rest =>
      match skipBlank rest with
      | '\x7d' :: rest => some (.obj [], rest)
      | rest => (readMembers fuel rest).map fun (members, rest) => (.obj members, rest)
    | text => (readNumeral text).map fun (n, rest) => (.num n, rest)

def readItems : ℕ → List Char → Option (List Json × List Char)
  | 0, _ => none
  | fuel + 1, text => do
    let (item, rest) ← readValue fuel text
    match skipBlank rest with
    | ']' :: rest => some ([item], rest)
    | ',' :: rest => do
      let (items, rest) ← readItems fuel rest
      some (item :: items, rest)
    | _ => none

def readMembers : ℕ → List Char → Option (List (List Char × Json) × List Char)
  | 0, _ => none
  | fuel + 1, text =>
    match skipBlank text with
    | '"' :: rest => do
      let (key, rest) ← readString rest
      match skipBlank rest with
      | ':' :: rest => do
        let (value, rest) ← readValue fuel rest
        match skipBlank rest with
        | '\x7d' :: rest => some ([(key, value)], rest)
        | ',' :: rest => do
          let (members, rest) ← readMembers fuel rest
          some ((key, value) :: members, rest)
        | _ => none
      | _ => none
    | _ => none

end

def parse (text : List Char) : Option Json := do
  let (value, rest) ← readValue (text.length + 1) text
  if skipBlank rest = [] then some value else none

end Reader

section Strings

theorem code_point (c : Char) : c.toNat < 0xd800 ∨ 0xdfff < c.toNat ∧ c.toNat < 0x110000 :=
  c.valid

theorem decodeUnits_units (c : Char) (rest : List ℕ) :
    decodeUnits (units c ++ rest) = (decodeUnits rest).map (.cons c) := by
  have point := code_point c
  by_cases short : c.toNat < 0x10000
  · have high : ¬(0xd800 ≤ c.toNat ∧ c.toNat < 0xdc00) := by omega
    have low : ¬(0xdc00 ≤ c.toNat ∧ c.toNat < 0xe000) := by omega
    rw [units, if_pos short, List.singleton_append, decodeUnits.eq_def]
    simp only [if_neg high, if_neg low, Char.ofNat_toNat]
  · have high : 0xd800 ≤ 0xd800 + (c.toNat - 0x10000) / 0x400 ∧
        0xd800 + (c.toNat - 0x10000) / 0x400 < 0xdc00 := by omega
    have low : 0xdc00 ≤ 0xdc00 + (c.toNat - 0x10000) % 0x400 ∧
        0xdc00 + (c.toNat - 0x10000) % 0x400 < 0xe000 := by omega
    have whole : 0x10000 + (0xd800 + (c.toNat - 0x10000) / 0x400 - 0xd800) * 0x400 +
        (0xdc00 + (c.toNat - 0x10000) % 0x400 - 0xdc00) = c.toNat := by omega
    rw [units, if_neg short, List.cons_append, List.singleton_append, decodeUnits.eq_def]
    simp only [if_pos high, if_pos low, whole, Char.ofNat_toNat]

theorem decodeUnits_text (text : List Char) : decodeUnits (text.flatMap units) = some text := by
  induction text with
  | nil => rfl
  | cons c text ih => rw [List.flatMap_cons, decodeUnits_units, ih, Option.map_some]

theorem hexValue_digitChar {n : ℕ} (small : n < 16) : hexValue (Nat.digitChar n) = some n := by
  interval_cases n
  all_goals decide

theorem readUnit_digits {unit : ℕ} (small : unit < 0x10000) :
    readUnit (Nat.digitChar (unit / 4096 % 16)) (Nat.digitChar (unit / 256 % 16))
      (Nat.digitChar (unit / 16 % 16)) (Nat.digitChar (unit % 16)) = some unit := by
  have sum : 4096 * (unit / 4096 % 16) + 256 * (unit / 256 % 16) + 16 * (unit / 16 % 16) +
      unit % 16 = unit := by omega
  have digit (n : ℕ) : hexValue (Nat.digitChar (n % 16)) = some (n % 16) :=
    hexValue_digitChar (Nat.mod_lt n (by decide))
  simp only [readUnit, digit, Option.bind_eq_bind, Option.bind_some, sum]

/-- What a reader makes of some characters of a string in front of others. -/
def Reads (shown : List Char) (found : List ℕ) : Prop :=
  ∀ rest, readUnits (shown ++ rest) =
    (readUnits rest).map fun (more, rest) => (found ++ more, rest)

theorem Reads.append {shown shown' : List Char} {found found' : List ℕ} (h : Reads shown found)
    (h' : Reads shown' found') : Reads (shown ++ shown') (found ++ found') := by
  intro rest
  rw [List.append_assoc, h, h', Option.map_map]
  congr 1
  funext answer
  simp

theorem reads_nil : Reads [] [] := by
  intro rest
  simp

theorem reads_escapeUnit {unit : ℕ} (small : unit < 0x10000) :
    Reads (escapeUnit unit) [unit] := by
  intro rest
  simp only [escapeUnit, List.cons_append, List.nil_append]
  rw [readUnits.eq_def]
  simp only [Char.reduceEq, if_false, if_true, readUnit_digits small, Option.bind_eq_bind,
    Option.bind_some, Option.map_eq_bind]
  rfl

theorem reads_simple {e : Char} {unit : ℕ} (known : readEscape e = some unit) :
    Reads ['\\', e] [unit] := by
  have plain : e ≠ 'u' := by
    rintro rfl
    simp [readEscape] at known
  intro rest
  simp only [List.cons_append, List.nil_append]
  rw [readUnits.eq_def]
  simp [plain, known, Option.map_eq_bind]

theorem units_lt {c : Char} {unit : ℕ} (member : unit ∈ units c) : unit < 0x10000 := by
  have point := code_point c
  unfold units at member
  split at member
  · rw [List.mem_singleton.mp member]
    assumption
  · simp only [List.mem_cons, List.not_mem_nil, or_false] at member
    omega

theorem reads_escapeUnits {found : List ℕ} (small : ∀ unit ∈ found, unit < 0x10000) :
    Reads (found.flatMap escapeUnit) found := by
  induction found with
  | nil => exact reads_nil
  | cons unit found ih =>
    have first := reads_escapeUnit (small unit List.mem_cons_self)
    exact first.append (ih fun more member => small more (List.mem_cons_of_mem _ member))

theorem reads_escape (ascii : Bool) (c : Char) : Reads (escape ascii c) (units c) := by
  unfold escape
  split_ifs with quotation backslash newline carriage tab feed back special
  · subst quotation
    exact reads_simple rfl
  · subst backslash
    exact reads_simple rfl
  · subst newline
    exact reads_simple rfl
  · subst carriage
    exact reads_simple rfl
  · subst tab
    exact reads_simple rfl
  · subst feed
    exact reads_simple rfl
  · subst back
    exact reads_simple rfl
  · exact reads_escapeUnits fun unit member => units_lt member
  · intro rest
    have shown : ¬c.toNat < 32 := fun small => special (Or.inl small)
    rw [List.singleton_append, readUnits.eq_def]
    simp only [if_neg quotation, if_neg backslash, if_neg shown, Option.map_eq_bind]
    rfl

theorem reads_text (ascii : Bool) (text : List Char) :
    Reads (text.flatMap (escape ascii)) (text.flatMap units) := by
  induction text with
  | nil => exact reads_nil
  | cons c text ih =>
    rw [List.flatMap_cons, List.flatMap_cons]
    exact (reads_escape ascii c).append ih

/-- A quoted string is read back, whatever follows it. -/
theorem readString_quote (ascii : Bool) (text rest : List Char) :
    readString (text.flatMap (escape ascii) ++ '"' :: rest) = some (text, rest) := by
  have closing : readUnits ('"' :: rest) = some ([], rest) := by
    rw [readUnits.eq_def]
    rfl
  rw [readString, reads_text, closing]
  simp only [Option.map_some, List.append_nil, Option.bind_eq_bind, Option.bind_some,
    decodeUnits_text]

end Strings

section Numerals

theorem digits_append (text : List Char) : (digits text).1 ++ (digits text).2 = text := by
  induction text with
  | nil => rfl
  | cons c text ih =>
    rw [digits]
    split
    · exact congrArg (List.cons c) ih
    · rfl

theorem mem_digits {text : List Char} {c : Char} (member : c ∈ (digits text).1) :
    c.isDigit = true := by
  induction text with
  | nil => cases member
  | cons d text ih =>
    rw [digits] at member
    split at member
    · rename_i digit
      rcases List.mem_cons.mp member with rfl | later
      · exact digit
      · exact ih later
    · cases member

theorem inNumeral_digit {c : Char} (digit : c.isDigit = true) : inNumeral c = true := by
  simp [inNumeral, digit]

theorem isExponent_chars {text : List Char} (valid : isExponent text = true) {c : Char}
    (member : c ∈ text) : inNumeral c = true := by
  match text with
  | [] => cases member
  | [_] => cases valid
  | e :: sign :: rest =>
    simp only [isExponent, Bool.and_eq_true, Bool.or_eq_true, decide_eq_true_eq,
      List.all_eq_true] at valid
    obtain ⟨⟨marks, _⟩, power⟩ := valid
    rcases List.mem_cons.mp member with rfl | later
    · rcases marks with rfl | rfl
      · decide
      · decide
    · by_cases signed : sign = '+' ∨ sign = '-'
      · rw [if_pos signed] at power
        rcases List.mem_cons.mp later with rfl | inside
        · rcases signed with rfl | rfl
          · decide
          · decide
        · exact inNumeral_digit (power c inside)
      · rw [if_neg signed] at power
        exact inNumeral_digit (power c later)

theorem isFraction_chars {text : List Char} (valid : isFraction text = true) {c : Char}
    (member : c ∈ text) : inNumeral c = true := by
  unfold isFraction at valid
  split at valid
  · rename_i rest
    rw [Bool.and_eq_true] at valid
    rcases List.mem_cons.mp member with rfl | later
    · decide
    · rw [← digits_append rest] at later
      rcases List.mem_append.mp later with digit | exponent
      · exact inNumeral_digit (mem_digits digit)
      · exact isExponent_chars valid.2 exponent
  · exact isExponent_chars valid member

theorem isUnsigned_chars {text : List Char} (valid : isUnsigned text = true) {c : Char}
    (member : c ∈ text) : inNumeral c = true := by
  rw [isUnsigned, Bool.and_eq_true] at valid
  rw [← digits_append text] at member
  rcases List.mem_append.mp member with digit | fraction
  · exact inNumeral_digit (mem_digits digit)
  · exact isFraction_chars valid.2 fraction

theorem isUnsigned_first {text : List Char} (valid : isUnsigned text = true) :
    ∃ c rest, text = c :: rest ∧ c.isDigit = true := by
  rw [isUnsigned, Bool.and_eq_true, Bool.and_eq_true, decide_eq_true_eq] at valid
  obtain ⟨c, more, whole⟩ := List.exists_cons_of_ne_nil valid.1.1
  refine ⟨c, more ++ (digits text).2, ?_, mem_digits (whole ▸ List.mem_cons_self)⟩
  rw [← List.cons_append, ← whole, digits_append]

theorem Numeral.chars (n : Numeral) {c : Char} (member : c ∈ n.text) : inNumeral c = true := by
  have valid := n.valid
  unfold isNumeral at valid
  split at valid
  · rename_i text shape
    rw [shape] at member
    rcases List.mem_cons.mp member with rfl | later
    · decide
    · exact isUnsigned_chars valid later
  · exact isUnsigned_chars valid member

theorem Numeral.first (n : Numeral) :
    ∃ c rest, n.text = c :: rest ∧ (c = '-' ∨ c.isDigit = true) := by
  have valid := n.valid
  unfold isNumeral at valid
  split at valid
  · rename_i text shape
    exact ⟨'-', text, shape, Or.inl rfl⟩
  · obtain ⟨c, rest, shape, digit⟩ := isUnsigned_first valid
    exact ⟨c, rest, shape, Or.inr digit⟩

/-- Nothing follows, or no character a numeral could go on with. -/
def Stops (rest : List Char) : Prop := ∀ c ∈ rest.head?, inNumeral c = false

theorem stops_cons {c : Char} (rest : List Char) (other : inNumeral c = false) :
    Stops (c :: rest) := by
  intro d first
  rw [List.head?_cons, Option.mem_some_iff] at first
  exact first ▸ other

theorem readNumeral_text (n : Numeral) {rest : List Char} (stops : Stops rest) :
    readNumeral (n.text ++ rest) = some (n, rest) := by
  have ends : rest.takeWhile inNumeral = [] ∧ rest.dropWhile inNumeral = rest := by
    cases rest with
    | nil => exact ⟨rfl, rfl⟩
    | cons c rest =>
      have other : ¬inNumeral c = true := by simp [stops c rfl]
      exact ⟨List.takeWhile_cons_of_neg other, List.dropWhile_cons_of_neg other⟩
  have text : (n.text ++ rest).takeWhile inNumeral = n.text := by
    rw [List.takeWhile_append_of_pos fun c member => n.chars member, ends.1, List.append_nil]
  have after : (n.text ++ rest).dropWhile inNumeral = rest := by
    rw [List.dropWhile_append_of_pos fun c member => n.chars member, ends.2]
  simp only [readNumeral, text, after, n.valid, dite_true]

end Numerals

section Values

theorem skipBlank_cons {c : Char} (shown : isBlank c = false) (rest : List Char) :
    skipBlank (c :: rest) = c :: rest :=
  List.dropWhile_cons_of_neg (by simp [shown])

theorem skipBlank_space (rest : List Char) : skipBlank (' ' :: rest) = skipBlank rest :=
  List.dropWhile_cons_of_pos rfl

theorem readValue_space (fuel : ℕ) (text : List Char) :
    readValue fuel (' ' :: text) = readValue fuel text := by
  cases fuel with
  | zero => rfl
  | succ fuel => rw [readValue, readValue, skipBlank_space]

theorem readItems_space (fuel : ℕ) (text : List Char) :
    readItems fuel (' ' :: text) = readItems fuel text := by
  cases fuel with
  | zero => rfl
  | succ fuel => rw [readItems, readItems, readValue_space]

theorem readMembers_space (fuel : ℕ) (text : List Char) :
    readMembers fuel (' ' :: text) = readMembers fuel text := by
  cases fuel with
  | zero => rfl
  | succ fuel => rw [readMembers, readMembers, skipBlank_space]

theorem numeral_first_cases {c : Char} (first : c = '-' ∨ c.isDigit = true) :
    isBlank c = false ∧ c ≠ 'n' ∧ c ≠ 't' ∧ c ≠ 'f' ∧ c ≠ '"' ∧ c ≠ '[' ∧ c ≠ ']' ∧
      c ≠ '\x7b' := by
  rcases first with rfl | digit
  · decide
  · refine ⟨?_, ?_, ?_, ?_, ?_, ?_, ?_, ?_⟩
    · by_contra blank
      simp only [isBlank, Bool.not_eq_false, Bool.or_eq_true, decide_eq_true_eq] at blank
      rcases blank with ((rfl | rfl) | rfl) | rfl
      all_goals revert digit
      all_goals decide
    all_goals rintro rfl
    all_goals revert digit
    all_goals decide

theorem readValue_numeral (fuel : ℕ) (n : Numeral) {rest : List Char} (stops : Stops rest) :
    readValue (fuel + 1) (n.text ++ rest) = some (.num n, rest) := by
  obtain ⟨c, more, shape, first⟩ := n.first
  obtain ⟨shown, notN, notT, notF, notQuote, notArr, _, notObj⟩ := numeral_first_cases first
  have read := readNumeral_text n stops
  rw [shape, List.cons_append] at read ⊢
  rw [readValue, skipBlank_cons shown]
  split
  all_goals simp_all

/-- A value starts with no blank and closes no list. -/
theorem write_first (ascii : Bool) (value : Json) :
    ∃ c rest, write ascii value = c :: rest ∧ isBlank c = false ∧ c ≠ ']' := by
  match value with
  | .null => exact ⟨'n', _, by rw [write], rfl, by decide⟩
  | .bool true => exact ⟨'t', _, by rw [write], rfl, by decide⟩
  | .bool false => exact ⟨'f', _, by rw [write], rfl, by decide⟩
  | .num n =>
    obtain ⟨c, rest, shape, first⟩ := n.first
    obtain ⟨shown, _, _, _, _, _, open', _⟩ := numeral_first_cases first
    exact ⟨c, rest, by rw [write, shape], shown, open'⟩
  | .str text => exact ⟨'"', _, by rw [write, quote, List.cons_append], rfl, by decide⟩
  | .arr [] => exact ⟨'[', _, by rw [write], rfl, by decide⟩
  | .arr (item :: items) => exact ⟨'[', _, by rw [write, List.cons_append], rfl, by decide⟩
  | .obj [] => exact ⟨'\x7b', _, by rw [write], rfl, by decide⟩
  | .obj ((key, value) :: members) =>
    exact ⟨'\x7b', _, by rw [write, List.cons_append, List.cons_append], rfl, by decide⟩

theorem stops_writeItems (ascii : Bool) (items : List Json) (rest : List Char) :
    Stops (writeItems ascii items ++ rest) := by
  cases items with
  | nil => exact stops_cons rest rfl
  | cons item items => exact stops_cons _ rfl

theorem stops_writeMembers (ascii : Bool) (members : List (List Char × Json))
    (rest : List Char) : Stops (writeMembers ascii members ++ rest) := by
  cases members with
  | nil => exact stops_cons rest rfl
  | cons member members => exact stops_cons _ rfl

theorem quote_append (ascii : Bool) (text rest : List Char) :
    quote ascii text ++ rest = '"' :: (text.flatMap (escape ascii) ++ '"' :: rest) := by
  rw [quote, List.cons_append, List.cons_append, List.append_assoc, List.singleton_append]

theorem readValue_quote (fuel : ℕ) (rest : List Char) :
    readValue (fuel + 1) ('"' :: rest) =
      (readString rest).map fun (text, rest) => (.str text, rest) := rfl

theorem readValue_items (fuel : ℕ) {c : Char} (rest : List Char) (shown : isBlank c = false)
    (apart : c ≠ ']') :
    readValue (fuel + 1) ('[' :: c :: rest) =
      (readItems fuel (c :: rest)).map fun (items, rest) => (.arr items, rest) := by
  rw [readValue, skipBlank_cons rfl]
  simp only [skipBlank_cons shown]
  split
  · rename_i closing
    exact absurd (List.cons_eq_cons.mp closing).1 apart
  · rfl

theorem readValue_members (fuel : ℕ) (rest : List Char) :
    readValue (fuel + 1) ('\x7b' :: '"' :: rest) =
      (readMembers fuel ('"' :: rest)).map fun (members, rest) => (.obj members, rest) := rfl

theorem readMembers_quote (fuel : ℕ) (ascii : Bool) (key rest : List Char) :
    readMembers (fuel + 1) (quote ascii key ++ ':' :: rest) =
      (do
        let (value, rest) ← readValue fuel rest
        match skipBlank rest with
        | '\x7d' :: rest => some ([(key, value)], rest)
        | ',' :: rest => do
          let (members, rest) ← readMembers fuel rest
          some ((key, value) :: members, rest)
        | _ => none) := by
  rw [quote_append, readMembers, skipBlank_cons rfl]
  simp only [readString_quote, Option.bind_eq_bind, Option.bind_some,
    skipBlank_cons (rfl : isBlank ':' = false)]

/-- With this fuel the reader inverts the writer on every value whose text is not longer. -/
def ReadsValues (ascii : Bool) (fuel : ℕ) : Prop :=
  ∀ value rest, (write ascii value).length ≤ fuel → Stops rest →
    readValue fuel (write ascii value ++ rest) = some (value, rest)

def ReadsItems (ascii : Bool) (fuel : ℕ) : Prop :=
  ∀ item items rest, (write ascii item ++ writeItems ascii items).length ≤ fuel →
    readItems fuel (write ascii item ++ writeItems ascii items ++ rest) =
      some (item :: items, rest)

def ReadsMembers (ascii : Bool) (fuel : ℕ) : Prop :=
  ∀ key value members rest,
    (quote ascii key ++ ':' :: ' ' :: write ascii value ++
      writeMembers ascii members).length ≤ fuel →
    readMembers fuel (quote ascii key ++ ':' :: ' ' :: write ascii value ++
      writeMembers ascii members ++ rest) = some ((key, value) :: members, rest)

variable {ascii : Bool} {fuel : ℕ}

theorem readsValues_succ (allItems : ReadsItems ascii fuel) (allMembers : ReadsMembers ascii fuel) :
    ReadsValues ascii (fuel + 1) := by
  intro value rest enough stops
  match value with
  | .null => rfl
  | .bool true => rfl
  | .bool false => rfl
  | .num n => rw [write, readValue_numeral fuel n stops]
  | .str text =>
    rw [write, quote_append, readValue_quote, readString_quote]
    rfl
  | .arr [] => rfl
  | .arr (item :: items) =>
    obtain ⟨c, more, shape, shown, apart⟩ := write_first ascii item
    have read := allItems item items rest (by
      simp only [write, List.cons_append, List.length_cons] at enough
      omega)
    rw [shape] at read
    simp only [write, shape, List.cons_append] at read ⊢
    rw [readValue_items fuel _ shown apart, read]
    rfl
  | .obj [] => rfl
  | .obj ((key, value) :: members) =>
    have read := allMembers key value members rest (by
      simp only [write, List.cons_append, List.length_cons] at enough
      omega)
    simp only [write, List.cons_append, List.append_assoc, quote_append] at read ⊢
    rw [readValue_members, read]
    rfl

theorem readsItems_succ (values : ReadsValues ascii fuel) (allItems : ReadsItems ascii fuel) :
    ReadsItems ascii (fuel + 1) := by
  intro item items rest enough
  have positive : 0 < (writeItems ascii items).length := by
    cases items with
    | nil => exact Nat.succ_pos _
    | cons next items => exact Nat.succ_pos _
  rw [List.length_append] at enough
  rw [readItems, List.append_assoc,
    values item _ (by omega) (stops_writeItems ascii items rest)]
  cases items with
  | nil => rfl
  | cons next items =>
    have read := allItems next items rest (by
      simp only [writeItems, List.cons_append, List.length_cons] at enough
      omega)
    simp only [writeItems, List.cons_append, Option.bind_eq_bind, Option.bind_some,
      skipBlank_cons (rfl : isBlank ',' = false), readItems_space, read]

theorem readsMembers_succ (values : ReadsValues ascii fuel)
    (allMembers : ReadsMembers ascii fuel) : ReadsMembers ascii (fuel + 1) := by
  intro key value members rest enough
  simp only [List.length_append, List.length_cons] at enough
  simp only [List.append_assoc, List.cons_append]
  rw [readMembers_quote, readValue_space,
    values value _ (by omega) (stops_writeMembers ascii members rest)]
  cases members with
  | nil => rfl
  | cons next members =>
    have read := allMembers next.1 next.2 members rest (by
      simp only [writeMembers, List.cons_append, List.length_cons, List.length_append] at enough ⊢
      omega)
    simp only [List.append_assoc, List.cons_append] at read
    simp only [writeMembers, List.append_assoc, List.cons_append, Option.bind_eq_bind,
      Option.bind_some, skipBlank_cons (rfl : isBlank ',' = false), readMembers_space, read]

theorem reads_all (ascii : Bool) (fuel : ℕ) :
    ReadsValues ascii fuel ∧ ReadsItems ascii fuel ∧ ReadsMembers ascii fuel := by
  induction fuel with
  | zero =>
    refine ⟨fun value rest enough => ?_, fun item items rest enough => ?_,
      fun key value members rest enough => ?_⟩
    · obtain ⟨c, more, shape, _⟩ := write_first ascii value
      simp [shape] at enough
    · obtain ⟨c, more, shape, _⟩ := write_first ascii item
      simp [shape] at enough
    · simp at enough
  | succ fuel ih =>
    obtain ⟨values, allItems, allMembers⟩ := ih
    exact ⟨readsValues_succ allItems allMembers, readsItems_succ values allItems,
      readsMembers_succ values allMembers⟩

/-- What is written is what is read, in either layout. -/
theorem parse_write (ascii : Bool) (value : Json) : parse (write ascii value) = some value := by
  have ends : Stops [] := by
    intro c first
    cases first
  have read := (reads_all ascii ((write ascii value).length + 1)).1 value [] (Nat.le_succ _) ends
  rw [List.append_nil] at read
  rw [parse, read]
  rfl

example : (parse "[ 1e-05,\"\\ud83d\\ude00\\u0041\" ]".toList).map (write false) =
    some "[1e-05, \"😀A\"]".toList := by decide +kernel

end Values

section Characters

/-- No control character, and with the escapes nothing but ASCII. -/
def Printable (ascii : Bool) (c : Char) : Prop :=
  32 ≤ c.toNat ∧ (ascii = true → c.toNat ≤ 126)

instance (ascii : Bool) (c : Char) : Decidable (Printable ascii c) :=
  inferInstanceAs (Decidable (_ ∧ _))

theorem Printable.of_ascii {ascii : Bool} {c : Char} (h : Printable true c) : Printable ascii c :=
  ⟨h.1, fun _ => h.2 rfl⟩

theorem printable_all {ascii : Bool} {text : List Char}
    (h : text.all (fun c => decide (Printable true c)) = true) {c : Char} (member : c ∈ text) :
    Printable ascii c :=
  Printable.of_ascii (of_decide_eq_true (List.all_eq_true.mp h c member))

theorem printable_digitChar {n : ℕ} (small : n < 16) : Printable true (Nat.digitChar n) := by
  interval_cases n
  all_goals decide

theorem printable_escapeUnit {unit : ℕ} {c : Char} (member : c ∈ escapeUnit unit) :
    Printable true c := by
  have digit (n : ℕ) : Printable true (Nat.digitChar (n % 16)) :=
    printable_digitChar (Nat.mod_lt n (by decide))
  simp only [escapeUnit, List.mem_cons, List.not_mem_nil, or_false] at member
  rcases member with rfl | rfl | rfl | rfl | rfl | rfl
  · decide
  · decide
  · exact digit _
  · exact digit _
  · exact digit _
  · exact digit _

theorem printable_escape {ascii : Bool} {c d : Char} (member : d ∈ escape ascii c) :
    Printable ascii d := by
  unfold escape at member
  split_ifs at member with _ _ _ _ _ _ _ special
  · exact printable_all rfl member
  · exact printable_all rfl member
  · exact printable_all rfl member
  · exact printable_all rfl member
  · exact printable_all rfl member
  · exact printable_all rfl member
  · exact printable_all rfl member
  · obtain ⟨unit, _, inside⟩ := List.mem_flatMap.mp member
    exact (printable_escapeUnit inside).of_ascii
  · rw [List.mem_singleton.mp member]
    constructor
    · by_contra small
      exact special (Or.inl (by omega))
    · intro escapes
      by_contra wide
      exact special (Or.inr ⟨escapes, by omega⟩)

theorem printable_quote {ascii : Bool} {text : List Char} {c : Char}
    (member : c ∈ quote ascii text) : Printable ascii c := by
  simp only [quote, List.cons_append, List.mem_cons, List.mem_append, List.mem_flatMap,
    List.not_mem_nil, or_false] at member
  rcases member with rfl | ⟨d, _, inside⟩ | rfl
  · exact Printable.of_ascii (by decide)
  · exact printable_escape inside
  · exact Printable.of_ascii (by decide)

theorem printable_inNumeral {c : Char} (member : inNumeral c = true) : Printable true c := by
  simp only [inNumeral, Bool.or_eq_true, decide_eq_true_eq] at member
  rcases member with ((((digit | rfl) | rfl) | rfl) | rfl) | rfl
  · have range : 48 ≤ c.toNat ∧ c.toNat ≤ 57 := Char.isDigit_iff_toNat.mp digit
    exact ⟨by omega, fun _ => by omega⟩
  all_goals decide

mutual

theorem printable_write (ascii : Bool) (value : Json) :
    ∀ c ∈ write ascii value, Printable ascii c := by
  intro c member
  match value with
  | .null => exact printable_all rfl member
  | .bool true => exact printable_all rfl member
  | .bool false => exact printable_all rfl member
  | .num n =>
    rw [write] at member
    exact (printable_inNumeral (n.chars member)).of_ascii
  | .str text =>
    rw [write] at member
    exact printable_quote member
  | .arr [] => exact printable_all rfl member
  | .arr (item :: items) =>
    simp only [write, List.cons_append, List.mem_cons, List.mem_append] at member
    rcases member with rfl | inside | inside
    · exact Printable.of_ascii (by decide)
    · exact printable_write ascii item c inside
    · exact printable_writeItems ascii items c inside
  | .obj [] => exact printable_all rfl member
  | .obj ((key, value) :: members) =>
    simp only [write, List.cons_append, List.append_assoc, List.mem_cons, List.mem_append]
      at member
    rcases member with rfl | inside | rfl | rfl | inside | inside
    · exact Printable.of_ascii (by decide)
    · exact printable_quote inside
    · exact Printable.of_ascii (by decide)
    · exact Printable.of_ascii (by decide)
    · exact printable_write ascii value c inside
    · exact printable_writeMembers ascii members c inside

theorem printable_writeItems (ascii : Bool) (items : List Json) :
    ∀ c ∈ writeItems ascii items, Printable ascii c := by
  intro c member
  match items with
  | [] => exact printable_all rfl member
  | item :: items =>
    simp only [writeItems, List.cons_append, List.mem_cons, List.mem_append] at member
    rcases member with rfl | rfl | inside | inside
    · exact Printable.of_ascii (by decide)
    · exact Printable.of_ascii (by decide)
    · exact printable_write ascii item c inside
    · exact printable_writeItems ascii items c inside

theorem printable_writeMembers (ascii : Bool) (members : List (List Char × Json)) :
    ∀ c ∈ writeMembers ascii members, Printable ascii c := by
  intro c member
  match members with
  | [] => exact printable_all rfl member
  | (key, value) :: members =>
    simp only [writeMembers, List.cons_append, List.append_assoc, List.mem_cons,
      List.mem_append] at member
    rcases member with rfl | rfl | inside | rfl | rfl | inside | inside
    · exact Printable.of_ascii (by decide)
    · exact Printable.of_ascii (by decide)
    · exact printable_quote inside
    · exact Printable.of_ascii (by decide)
    · exact Printable.of_ascii (by decide)
    · exact printable_write ascii value c inside
    · exact printable_writeMembers ascii members c inside

end

end Characters

end EdgeVoice.JsonText
